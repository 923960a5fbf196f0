import NyanChat.Disk
import NyanChat.ServerRuns

/-!
# The files of the codes

The server keeps the code of a pseudo in the file whose path is the pseudo behind `pseudo_code_server/`, also when the
pseudo is a path itself.  So a pseudo with a slash may lead out of the directory, and a slash before a pseudo makes
another pseudo with the same file.  Pseudos without a slash stay in the directory and have different files
(`own_file_iff`).
-/

namespace NyanChat

open Paths

/-- The place of the file for a pseudo when the server works in `cwd`. -/
def codePlace (cwd : Place) (p : Key) : Place := locate SLASH DOT cwd (pathKey p)

def codeDirectory (cwd : Place) : Place := cwd ++ [ascii "pseudo_code_server"]

/-- The file of the pseudo is an entry of the directory of the codes. -/
def Inside (cwd : Place) (p : Key) : Prop := ∃ name, codePlace cwd p = codeDirectory cwd ++ [name]

/-- The file of the pseudo is an entry of the directory of the codes, and no other pseudo that the server accepts has
it. -/
def OwnFile (cwd : Place) (p : Key) : Prop :=
  Inside cwd p ∧ ∀ q, ValidPseudo q → q ≠ p → codePlace cwd q ≠ codePlace cwd p

variable {cwd : Place} {p q : Key}

theorem pathKey_eq (p : Key) : pathKey p = ascii "pseudo_code_server" ++ SLASH :: p := by
  have hdir : PATH_SRV_CODES = ascii "pseudo_code_server" ++ [SLASH] := by decide
  rw [pathKey, hdir, List.append_assoc, List.singleton_append]

theorem isName_folder : IsName SLASH DOT (ascii "pseudo_code_server") :=
  ⟨⟨by decide, by decide, by decide⟩, by decide⟩

theorem codePlace_eq (cwd : Place) (p : Key) : codePlace cwd p = resolve SLASH DOT (codeDirectory cwd) p := by
  have hhead : (pathKey p).head? ≠ some SLASH := by
    have hfirst : (pathKey p).head? = some 112 := by rw [pathKey_eq]; rfl
    rw [hfirst]
    decide
  rw [codePlace, locate, if_neg hhead, pathKey_eq, resolve_append, resolve_proper isName_folder.proper
    isName_folder.sep, codeDirectory]

/-! ### Pseudos without a slash -/

theorem ValidPseudo.proper (h : ValidPseudo p) : Proper DOT p := by
  have hlen := h.1
  refine ⟨?_, ?_, ?_⟩ <;> rintro rfl <;> exact absurd hlen (by decide)

theorem ValidPseudo.isName (h : ValidPseudo p) (hslash : SLASH ∉ p) : IsName SLASH DOT p := ⟨h.proper, hslash⟩

theorem codePlace_of_no_slash (h : ValidPseudo p) (hslash : SLASH ∉ p) :
    codePlace cwd p = codeDirectory cwd ++ [p] := by
  rw [codePlace_eq, resolve_proper h.proper hslash]

theorem inside_of_no_slash (h : ValidPseudo p) (hslash : SLASH ∉ p) : Inside cwd p :=
  ⟨p, codePlace_of_no_slash h hslash⟩

theorem codePlace_ne (hp : ValidPseudo p) (hq : ValidPseudo q) (hpslash : SLASH ∉ p) (hqslash : SLASH ∉ q)
    (hne : q ≠ p) : codePlace cwd q ≠ codePlace cwd p := by
  rw [codePlace_of_no_slash hp hpslash, codePlace_of_no_slash hq hqslash]
  intro h
  have hlast := List.append_inj_right h rfl
  exact hne (List.singleton_inj.1 hlast)

/-! ### Other names of a file -/

/-- Slashes before a pseudo, as long as there is room for them. -/
theorem codePlace_slashes (n : ℕ) (p : List UInt8) :
    codePlace cwd (List.replicate n SLASH ++ p) = codePlace cwd p := by
  rw [codePlace_eq, resolve_replicate_sep, codePlace_eq]

theorem validPseudo_slashes {n : ℕ} {name : List UInt8} (hzero : 0 ∉ name)
    (hlen : MIN_NAME_LENGTH ≤ n + name.length ∧ n + name.length < MAX_NAME_LENGTH) :
    ValidPseudo (List.replicate n SLASH ++ name) := by
  refine ⟨?_, ?_, ?_⟩
  · rw [List.length_append, List.length_replicate]
    exact hlen.1
  · rw [List.length_append, List.length_replicate]
    exact hlen.2
  · rw [List.mem_append, not_or]
    exact ⟨fun h => absurd (List.eq_of_mem_replicate h) (by decide), hzero⟩

/-- A pseudo that is not of the full length shares its file with another one. -/
theorem alias_of_short (hp : ValidPseudo p) (hlen : p.length + 1 < MAX_NAME_LENGTH) (cwd : Place) :
    ∃ q, ValidPseudo q ∧ q ≠ p ∧ codePlace cwd q = codePlace cwd p := by
  have hmin := hp.1
  refine ⟨List.replicate 1 SLASH ++ p, validPseudo_slashes hp.2.2 (by omega), fun h => ?_, codePlace_slashes 1 p⟩
  have hlength := congrArg List.length h
  rw [List.length_append, List.length_replicate] at hlength
  omega

/-- A pseudo with a slash whose file is in the directory shares it with another one. -/
theorem alias_of_slash (hp : ValidPseudo p) (hslash : SLASH ∈ p) (hinside : Inside cwd p) :
    ∃ q, ValidPseudo q ∧ q ≠ p ∧ codePlace cwd q = codePlace cwd p := by
  by_cases hlen : p.length + 1 < MAX_NAME_LENGTH
  · exact alias_of_short hp hlen cwd
  · -- the name of the file, with slashes before it when it is too short for a pseudo
    obtain ⟨name, hname⟩ := hinside
    have hresolve := hname
    rw [codePlace_eq] at hresolve
    obtain ⟨hproper, hpart, hnot⟩ := infix_of_resolve hresolve
    have hshort : name.length < p.length := by
      rcases Nat.lt_or_eq_of_le hpart.length_le with hlt | heq
      · exact hlt
      · exact absurd (hpart.eq_of_length heq ▸ hslash) hnot
    have hmin : MIN_NAME_LENGTH = 4 := rfl
    have hmax : MAX_NAME_LENGTH = 64 := rfl
    have hvalid : ValidPseudo (List.replicate (MIN_NAME_LENGTH - name.length) SLASH ++ name) :=
      validPseudo_slashes (fun h => hp.2.2 (hpart.subset h)) (by have := hp.2.1; omega)
    refine ⟨_, hvalid, fun h => ?_, ?_⟩
    · have hlength := congrArg List.length h
      rw [List.length_append, List.length_replicate] at hlength
      omega
    · rw [codePlace_slashes, hname, codePlace_eq, resolve_proper hproper hnot]

/-- A pseudo of the full length without a slash is the only one with its file. -/
theorem ownFile_of_full (hp : ValidPseudo p) (hlen : p.length + 1 = MAX_NAME_LENGTH) (hslash : SLASH ∉ p) :
    OwnFile cwd p := by
  refine ⟨inside_of_no_slash hp hslash, fun q hq hne hsame => ?_⟩
  rw [codePlace_of_no_slash hp hslash, codePlace_eq] at hsame
  obtain ⟨-, hpart, -⟩ := infix_of_resolve hsame
  have hle := hpart.length_le
  have hmax := hq.2.1
  exact hne (hpart.eq_of_length (by omega)).symm

/-! ### What the server does with the files -/

/-- A message changes no file but the one of the pseudo that asks for a connection. -/
theorem step_files {hist : List Exchange} {s : ServerState} {e : Event} {r : Handled} (hrun : Run hist s)
    (hstep : Step e s r) {path : List UInt8} (hpath : r.state.codes path ≠ s.codes path) :
    ∃ p, e.Requests p ∧ ValidPseudo p ∧ path = pathKey p := by
  obtain ⟨accounts, htracked⟩ := run_tracked hrun
  rcases step_cases htracked.serves hstep with ⟨hs, -⟩ | ⟨p, i, c, hreq, hvalid, -, hacc⟩
  · exact absurd (by rw [hs]) hpath
  · refine ⟨p, hreq, hvalid, ?_⟩
    by_contra hne
    exact hpath (by rw [hacc.codes, Function.update_of_ne hne])

/-- The file of a pseudo is its own and in the directory exactly when the pseudo has the full length and no slash.
Among the pseudos without a slash each has its own file in the directory. -/
theorem own_file_iff (hp : ValidPseudo p) (cwd : Place) :
    (OwnFile cwd p ↔ p.length + 1 = MAX_NAME_LENGTH ∧ SLASH ∉ p) ∧
      (SLASH ∉ p → Inside cwd p ∧
        ∀ q, ValidPseudo q → SLASH ∉ q → q ≠ p → codePlace cwd q ≠ codePlace cwd p) := by
  refine ⟨⟨fun ⟨hinside, hown⟩ => ⟨?_, fun hslash => ?_⟩, fun ⟨hlen, hslash⟩ => ownFile_of_full hp hlen hslash⟩,
    fun hslash => ⟨inside_of_no_slash hp hslash, fun q hq hqslash hne => codePlace_ne hp hq hslash hqslash hne⟩⟩
  · have hmax := hp.2.1
    by_contra hshort
    obtain ⟨q, hq, hne, hsame⟩ := alias_of_short hp (by omega) cwd
    exact hown q hq hne hsame
  · obtain ⟨q, hq, hne, hsame⟩ := alias_of_slash hp hslash hinside
    exact hown q hq hne hsame

/-- A pseudo of 63 letters. -/
def longPseudo : Key := List.replicate 63 97

theorem own_file_iff_long : ValidPseudo longPseudo ∧ OwnFile [] longPseudo := by
  have hvalid : ValidPseudo longPseudo := ⟨by decide, by decide, by decide⟩
  exact ⟨hvalid, (own_file_iff hvalid []).1.2 ⟨by decide, by decide⟩⟩

/-- A pseudo leads to a file of the system, and two pseudos share one file. -/
theorem pseudo_leaves_directory :
    ValidPseudo (ascii "../../etc/passwd") ∧
      codePlace [ascii "srv"] (ascii "../../etc/passwd") = [ascii "etc", ascii "passwd"] ∧
      ¬ Inside [ascii "srv"] (ascii "../../etc/passwd") ∧
    ValidPseudo (ascii "alice") ∧ ValidPseudo (ascii "./alice") ∧
      codePlace [ascii "srv"] (ascii "./alice") = codePlace [ascii "srv"] (ascii "alice") := by
  have hplace : codePlace [ascii "srv"] (ascii "../../etc/passwd") = [ascii "etc", ascii "passwd"] := by decide +kernel
  refine ⟨⟨by decide, by decide, by decide⟩, hplace, fun hinside => ?_, ⟨by decide, by decide, by decide⟩,
    ⟨by decide, by decide, by decide⟩, by decide +kernel⟩
  obtain ⟨name, hname⟩ := hinside
  have hlength := congrArg List.length (hplace.symm.trans hname)
  exact absurd hlength (by simp [codeDirectory])

end NyanChat
