import Mathlib.Data.List.Induction

/-!
# Paths

A path is a list of characters with separators, a place in the file system the list of the names on the way to it from
the root.  Empty components and the component of one dot stay, that of two dots goes up (`enter`).  What a path adds to
the place it starts from are components of it (`foldl_enter_spec`), so a path that leads to a new name in that place
contains the name (`infix_of_resolve`).
-/

namespace Paths

variable {α : Type*} [DecidableEq α]

/-- The place of a component in the place `dir`. -/
def enter (dot : α) (dir : List (List α)) (name : List α) : List (List α) :=
  if name = [] ∨ name = [dot] then dir else if name = [dot, dot] then dir.dropLast else dir ++ [name]

/-- The place of a relative path in the place `dir`. -/
def resolve (sep dot : α) (dir : List (List α)) (path : List α) : List (List α) :=
  (path.splitOn sep).foldl (enter dot) dir

/-- The place of a path for a program that works in the place `cwd`. -/
def locate (sep dot : α) (cwd : List (List α)) (path : List α) : List (List α) :=
  resolve sep dot (if path.head? = some sep then [] else cwd) path

/-- A component that names an entry of the place it stands in. -/
def Proper (dot : α) (name : List α) : Prop := name ≠ [] ∧ name ≠ [dot] ∧ name ≠ [dot, dot]

/-- A path of one component, which names an entry. -/
structure IsName (sep dot : α) (name : List α) : Prop where
  proper : Proper dot name
  sep : sep ∉ name

variable {sep dot : α} {dir : List (List α)} {name : List α}

theorem enter_proper (h : Proper dot name) (dir : List (List α)) : enter dot dir name = dir ++ [name] := by
  obtain ⟨hempty, hdot, hdots⟩ := h
  rw [enter, if_neg (not_or.2 ⟨hempty, hdot⟩), if_neg hdots]

theorem resolve_proper (h : Proper dot name) (hsep : sep ∉ name) (dir : List (List α)) :
    resolve sep dot dir name = dir ++ [name] := by
  rw [resolve, List.splitOn_eq_singleton hsep, List.foldl_cons, List.foldl_nil, enter_proper h]

theorem resolve_append (dir : List (List α)) (path rest : List α) :
    resolve sep dot dir (path ++ sep :: rest) = resolve sep dot (resolve sep dot dir path) rest := by
  rw [resolve, List.splitOn_append_cons_self, List.foldl_append]
  rfl

/-- A separator before a relative path changes nothing. -/
theorem resolve_cons_sep (dir : List (List α)) (path : List α) :
    resolve sep dot dir (sep :: path) = resolve sep dot dir path := by
  have hempty : resolve sep dot dir [] = dir := by
    rw [resolve, List.splitOn_nil, List.foldl_cons, List.foldl_nil, enter, if_pos (Or.inl rfl)]
  rw [← List.nil_append (sep :: path), resolve_append, hempty]

theorem resolve_replicate_sep (dir : List (List α)) (n : ℕ) (path : List α) :
    resolve sep dot dir (List.replicate n sep ++ path) = resolve sep dot dir path := by
  induction n with
  | zero => rfl
  | succ n ih => rw [List.replicate_succ, List.cons_append, resolve_cons_sep, ih]

/-! ### What a path contains -/

/-- Each component of a path is a part of it. -/
theorem infix_of_mem_splitOn {path : List α} (h : name ∈ path.splitOn sep) : name <:+: path ∧ sep ∉ name := by
  induction hlen : path.length using Nat.strongRecOn generalizing path with
  | _ n ih =>
    by_cases hsep : sep ∈ path
    · obtain ⟨first, rest, rfl, hfirst⟩ := List.eq_append_cons_of_mem hsep
      rw [List.splitOn_append_cons_self_of_not_mem hfirst] at h
      rcases List.mem_cons.1 h with rfl | h
      · exact ⟨(List.prefix_append name _).isInfix, hfirst⟩
      · obtain ⟨hpart, hname⟩ := ih rest.length (by rw [← hlen, List.length_append, List.length_cons]; omega) h rfl
        have hrest : rest <:+ first ++ sep :: rest := ⟨first ++ [sep], by rw [List.append_assoc, List.singleton_append]⟩
        exact ⟨hpart.trans hrest.isInfix, hname⟩
    · rw [List.splitOn_eq_singleton hsep, List.mem_singleton] at h
      subst h
      exact ⟨List.infix_rfl, hsep⟩

/-- The components of a path go up some of the places of `dir`, and down to proper ones of them. -/
private theorem foldl_enter_spec (dot : α) (dir : List (List α)) (names : List (List α)) :
    ∃ k l, names.foldl (enter dot) dir = dir.take k ++ l ∧ ∀ name ∈ l, Proper dot name ∧ name ∈ names := by
  induction names using List.reverseRecOn with
  | nil => exact ⟨dir.length, [], by rw [List.foldl_nil, List.take_length, List.append_nil], nofun⟩
  | append_singleton names last ih =>
    obtain ⟨k, l, hplace, hl⟩ := ih
    have hl' : ∀ name ∈ l, Proper dot name ∧ name ∈ names ++ [last] := fun name hname =>
      ⟨(hl name hname).1, List.mem_append_left _ (hl name hname).2⟩
    rw [List.foldl_append, List.foldl_cons, List.foldl_nil, hplace]
    by_cases hstay : last = [] ∨ last = [dot]
    · exact ⟨k, l, if_pos hstay, hl'⟩
    · by_cases hup : last = [dot, dot]
      · rw [enter, if_neg hstay, if_pos hup]
        rcases List.eq_nil_or_concat l with rfl | ⟨before, top, rfl⟩
        · refine ⟨min k dir.length - 1, [], ?_, nofun⟩
          rw [List.append_nil, List.append_nil, List.dropLast_eq_take, List.length_take, List.take_take]
          congr 1
          omega
        · rw [List.concat_eq_append] at hl' ⊢
          refine ⟨k, before, ?_, fun name hname => hl' name (List.mem_append_left _ hname)⟩
          rw [← List.append_assoc, List.dropLast_concat]
      · have hproper : Proper dot last := ⟨fun h => hstay (Or.inl h), fun h => hstay (Or.inr h), hup⟩
        refine ⟨k, l ++ [last], by rw [enter_proper hproper, List.append_assoc], fun name hname => ?_⟩
        rcases List.mem_append.1 hname with hname | hname
        · exact hl' name hname
        · obtain rfl := List.mem_singleton.1 hname
          exact ⟨hproper, List.mem_append_right _ hname⟩

/-- A path that leads to a name in the place it starts from contains the name. -/
theorem infix_of_resolve {path : List α} (h : resolve sep dot dir path = dir ++ [name]) :
    Proper dot name ∧ name <:+: path ∧ sep ∉ name := by
  obtain ⟨k, l, hplace, hl⟩ := foldl_enter_spec dot dir (path.splitOn sep)
  have hname : name ∈ l := by
    rw [resolve, hplace] at h
    rcases List.eq_nil_or_concat l with rfl | ⟨before, top, rfl⟩
    · have hlen := congrArg List.length h
      rw [List.append_nil, List.length_take, List.length_append, List.length_singleton] at hlen
      omega
    · rw [List.concat_eq_append, ← List.append_assoc] at h
      obtain ⟨-, htop⟩ := List.append_inj' h rfl
      rw [List.concat_eq_append, htop]
      exact List.mem_append_right _ (List.mem_singleton_self name)
  exact ⟨(hl name hname).1, infix_of_mem_splitOn (hl name hname).2⟩

end Paths
