import NyanChat.Hashmap
import NyanChat.Library.Mixing
import Mathlib.Dynamics.PeriodicPts.Lemmas

/-!
# The values of the hash function

`jenkinsOneAtATimeHash` takes every 32-bit value (`exists_key_hash`), so every slot of a table is the home slot of some
string, and every string has a longer one with the same hash (`exists_append_hash`).
-/

namespace NyanChat

/-- What the hash function does to the word after a character was added. -/
private def mixTurn (h : UInt32) : UInt32 :=
  let h := h + (h <<< 10)
  h ^^^ (h >>> 6)

private def mixEnd (h : UInt32) : UInt32 :=
  let h := h + (h <<< 3)
  let h := h ^^^ (h >>> 11)
  h + (h <<< 15)

private theorem jenkins_eq (key : Key) :
    jenkinsOneAtATimeHash key = mixEnd (key.foldl (fun h c => mixTurn (addChar h c)) 0) := rfl

private theorem mixTurn_injective : Function.Injective mixTurn :=
  (Mixing.xor_shiftRight_injective (by decide) (by decide)).comp
    (Mixing.add_shiftLeft_injective (by decide) (by decide))

private theorem mixEnd_injective : Function.Injective mixEnd :=
  (Mixing.add_shiftLeft_injective (by decide) (by decide)).comp
    ((Mixing.xor_shiftRight_injective (by decide) (by decide)).comp
      (Mixing.add_shiftLeft_injective (by decide) (by decide)))

/-- The words that the loop reaches over the characters of a string. -/
private def Hashed (x : UInt32) : Prop := ∃ key : Key, 0 ∉ key ∧ key.foldl (fun h c => mixTurn (addChar h c)) 0 = x

private theorem Hashed.step {x : UInt32} (h : Hashed x) {c : UInt8} (hc : c ≠ 0) : Hashed (mixTurn (addChar x c)) := by
  obtain ⟨key, hkey, rfl⟩ := h
  refine ⟨key ++ [c], fun hmem => ?_, List.foldl_concat ..⟩
  rcases List.mem_append.1 hmem with hmem | hmem
  · exact hkey hmem
  · exact hc (List.mem_singleton.1 hmem).symm

/-- Every word is the hash of a string. -/
theorem exists_key_hash (x : UInt32) : ∃ key : Key, 0 ∉ key ∧ jenkinsOneAtATimeHash key = x := by
  have hall : ∀ y, Hashed y := Mixing.forall_mem mixTurn_injective ⟨[], List.not_mem_nil, rfl⟩
    (fun y hy => Hashed.step hy (c := 1) (by decide)) fun y hy => Hashed.step hy (c := 2) (by decide)
  have hfinite := Mixing.finite_word
  obtain ⟨y, rfl⟩ := Finite.surjective_of_injective mixEnd_injective x
  obtain ⟨key, hkey, rfl⟩ := hall y
  exact ⟨key, hkey, jenkins_eq key⟩

/-- Every slot is the home slot of some string. -/
theorem exists_key_home {size pos : UInt32} (hpos : pos.toNat < size.toNat) :
    ∃ key : Key, 0 ∉ key ∧ hash key size = pos := by
  obtain ⟨key, hkey, hhash⟩ := exists_key_hash pos
  refine ⟨key, hkey, ?_⟩
  rw [hash, hhash, ← UInt32.toNat_inj, UInt32.toNat_mod, Nat.mod_eq_of_lt hpos]

private theorem foldl_replicate_one (x : UInt32) (n : ℕ) :
    (List.replicate n (1 : UInt8)).foldl (fun h c => mixTurn (addChar h c)) x =
      (fun h => mixTurn (addChar h 1))^[n] x := by
  induction n generalizing x with
  | zero => rfl
  | succ n ih => exact ih _

/-- Every string is the beginning of a longer one with the same hash: enough equal characters bring the word of the
loop back. -/
theorem exists_append_hash (key : Key) :
    ∃ s : Key, s ≠ [] ∧ 0 ∉ s ∧ jenkinsOneAtATimeHash (key ++ s) = jenkinsOneAtATimeHash key := by
  have hfinite := Mixing.finite_word
  have hinj : Function.Injective fun h : UInt32 => mixTurn (addChar h 1) :=
    mixTurn_injective.comp (add_left_injective _)
  obtain ⟨n, hn, hback⟩ := hinj.mem_periodicPts (key.foldl (fun h c => mixTurn (addChar h c)) 0)
  refine ⟨List.replicate n 1, ?_, ?_, ?_⟩
  · rw [ne_eq, List.replicate_eq_nil_iff]
    exact hn.ne'
  · intro hmem
    exact absurd (List.eq_of_mem_replicate hmem) (by decide)
  · rw [jenkins_eq, jenkins_eq, List.foldl_append, foldl_replicate_one, hback]

end NyanChat
