import NyanChat.ServerRuns
import NyanChat.Probes

/-!
# The table of clients and the map of pseudos

In every state of a run the map of the server indexes the table of clients: it finds the pseudos of the clients, at
their indices, and nothing else (`Indexed`).  A message changes it at most by the insertion of a pseudo that it did
not find, below the growth limit, so it is never resized and loses no entry (`run_indexed`).
-/

namespace NyanChat

open OpenAddressing

/-- The slot `i` of the table of clients is taken by a client with the pseudo `p`. -/
def ServerState.Holds (s : ServerState) (i : Fin NB_MAX_CONNECTED_CLIENTS) (p : Key) : Prop :=
  ∃ c, s.clients.get i = some c ∧ cstr c.pseudo = some p

/-- The map is the index of the table of clients. -/
structure Indexed (s : ServerState) : Prop where
  found : ∀ i c, s.clients.get i = some c →
    ∃ p, cstr c.pseudo = some p ∧ hashmapFind s.hmPseudoToId p ≠ -1 ∧ (hashmapGet s.hmPseudoToId p).toNat = i
  owned : ∀ p, hashmapFind s.hmPseudoToId p ≠ -1 → ∃! i, s.Holds i p
  distinct : ∀ i j p, s.Holds i p → s.Holds j p → i = j

/-- A call leaves the map, or inserts into it a pseudo that it does not find. -/
def MapStep (hm hm' : Hashmap) : Prop :=
  hm' = hm ∨ ∃ fuel p i, hashmapFind hm p = -1 ∧ hashmapInsert fuel hm p i = some (hm', 1)

variable {s : ServerState} {accounts : Key → Option Account} {hist : List Exchange} {p : Key}

/-- A key that is found beside a short one is that one. -/
theorem eq_of_sameKey {k' key : Key} (hshort : k'.length < KEY_MAXLEN) (hsame : sameKey k' key = true) :
    k' = key := by
  rw [sameKey, beq_iff_eq, List.take_of_length_le hshort.le] at hsame
  have hlen := congrArg List.length hsame
  rw [List.length_take] at hlen
  rw [hsame, List.take_of_length_le (by omega)]

namespace Serves

/-- The map finds pseudos with an account only. -/
theorem account_of_found (h : Serves s accounts) (hfind : hashmapFind s.hmPseudoToId p ≠ -1) :
    ∃ a, accounts p = some a := by
  rcases hashmapFind_walk _ p with ⟨i, k', -, hfound⟩ | ⟨hno, -⟩
  · have hne : k' ≠ TOMBSTONE := by
      rintro rfl
      exact h.marks _ (Item.slot_removed.2 hfound.item)
    have hslot : s.hmPseudoToId.slot (probe p s.hmPseudoToId.size i).toNat =
        .live k' (s.hmPseudoToId.item (probe p s.hmPseudoToId.size i)).value := by
      rw [← Hashmap.slot_item, Item.slot_live]
      exact ⟨by rw [← hfound.item], hne⟩
    obtain ⟨a, ha, -⟩ := Option.map_eq_some_iff.1 (h.bindings.eq_some hslot)
    obtain ⟨-, hmax, -⟩ := (h.pseudo k' a.1 a.2 ha).1
    have hname : MAX_NAME_LENGTH = 64 := rfl
    have heq := eq_of_sameKey (by unfold KEY_MAXLEN; omega) hfound.same
    exact ⟨a, heq ▸ ha⟩
  · exact absurd hno hfind

theorem holds_iff (h : Serves s accounts) {i : Fin NB_MAX_CONNECTED_CLIENTS} :
    s.Holds i p ↔ ∃ c, accounts p = some (i, c) := by
  constructor
  · rintro ⟨c, hc, hp⟩
    obtain ⟨q, hq⟩ := (h.clients i c).1 hc
    obtain rfl := Option.some.inj ((h.pseudo q i c hq).2.1.symm.trans hp)
    exact ⟨c, hq⟩
  · rintro ⟨c, hp⟩
    exact ⟨c, (h.clients i c).2 ⟨p, hp⟩, (h.pseudo p i c hp).2.1⟩

theorem index_unique (h : Serves s accounts) {i j : Fin NB_MAX_CONNECTED_CLIENTS} (hi : s.Holds i p)
    (hj : s.Holds j p) : i = j := by
  obtain ⟨c, hc⟩ := h.holds_iff.1 hi
  obtain ⟨d, hd⟩ := h.holds_iff.1 hj
  rw [hc] at hd
  cases hd
  rfl

/-- The map answers the index of an account. -/
theorem get_account (h : Serves s accounts) {i : Fin NB_MAX_CONNECTED_CLIENTS} {c : Client}
    (hp : accounts p = some (i, c)) :
    hashmapFind s.hmPseudoToId p ≠ -1 ∧ (hashmapGet s.hmPseudoToId p).toNat = i := by
  have hkey := (h.pseudo p i c hp).1.validKey
  refine ⟨(hashmapFind_ne_iff h.sound h.bindings hkey).2 ⟨UInt32.ofNat i, by rw [hp]; rfl⟩, ?_⟩
  rw [hashmapGet_eq h.sound h.bindings hkey, hp]
  exact toNat_ofNat_index i

theorem indexed (h : Serves s accounts) : Indexed s := by
  refine ⟨fun i c hc => ?_, fun p hfind => ?_, fun i j p => h.index_unique⟩
  · obtain ⟨p, hp⟩ := (h.clients i c).1 hc
    exact ⟨p, (h.pseudo p i c hp).2.1, h.get_account hp⟩
  · obtain ⟨⟨i, c⟩, ha⟩ := h.account_of_found hfind
    exact ⟨i, h.holds_iff.2 ⟨c, ha⟩, fun j hj => h.index_unique hj (h.holds_iff.2 ⟨c, ha⟩)⟩

/-- What `takeCare` does to the map. -/
private theorem takeCare_map (h : Serves s accounts) (hp : ValidPseudo p) {fuel : ℕ} {clock : Clock} {msg : Message}
    {s' : ServerState} {i : Fin NB_MAX_CONNECTED_CLIENTS} {c : Client}
    (hcare : takeCare fuel clock s p msg (accounts p) = some (some (s', i, c))) :
    MapStep s.hmPseudoToId s'.hmPseudoToId := by
  generalize hacc : accounts p = cli at hcare
  cases takeCare_cared hcare with
  | known _ => exact Or.inl rfl
  | @added _ _ r _ _ hinsert =>
    have hunbound : ((accounts p).map fun a => UInt32.ofNat a.1.val) = none := by rw [hacc]; rfl
    have hno : hashmapFind s.hmPseudoToId p = -1 := by
      rcases hashmapFind_eq h.sound h.bindings hp.validKey with ⟨-, v, -, -, hv⟩ | ⟨hno, -⟩
      · rw [hunbound] at hv
        cases hv
      · exact hno
    rcases fuel with _ | fuel
    · cases hinsert
    obtain ⟨hm, rc⟩ := r
    have hfrom := hinsert
    rw [hashmapInsert_low hp.validKey h.not_loadTooHigh] at hfrom
    rcases insertFrom_cases h.sound h.bindings hp.validKey hfrom with ⟨rfl, -⟩ | ⟨-, ⟨v, hv⟩, -⟩
    · exact Or.inr ⟨fuel + 1, p, _, hno, hinsert⟩
    · rw [hunbound] at hv
      cases hv

private theorem onConnection_map (h : Serves s accounts) (hp : ValidPseudo p) {fuel : ℕ} {clock : Clock}
    {locals : Locals} {sock : Int} {msg : Message} {s' : ServerState} {sent : List Sent}
    (hrun : onConnection fuel clock locals sock p msg s = some (s', sent)) :
    MapStep s.hmPseudoToId s'.hmPseudoToId := by
  cases onConnection_branch h hp hrun with
  | refused _ => exact Or.inl rfl
  | full _ _ => exact Or.inl rfl
  | accepted _ hcare hstore =>
    obtain rfl := storeCode_eq_some hstore
    have hmap := h.takeCare_map hp hcare
    exact hmap

theorem mapStep (h : Serves s accounts) {e : Event} {r : Handled} (hstep : Step e s r) :
    MapStep s.hmPseudoToId r.state.hmPseudoToId := by
  obtain ⟨fuel, hrun⟩ := hstep
  cases onMsgReceived_branch hrun with
  | noPseudo => exact Or.inl rfl
  | connection _ hvalid _ hconn => exact h.onConnection_map hvalid hconn
  | text _ hvalid _ htext =>
    rw [onText_state h hvalid htext]
    exact Or.inl rfl
  | other => exact Or.inl rfl

end Serves

/-- In every state of a run the map indexes the table of clients; a found pseudo has a client, so the branches for a
bad value are not taken; and the next message changes the map at most by an insertion without growth. -/
theorem run_indexed (hrun : Run hist s) :
    Indexed s ∧
      (∀ p, hashmapFind s.hmPseudoToId p ≠ -1 → ∃ i : Fin NB_MAX_CONNECTED_CLIENTS,
        (hashmapGet s.hmPseudoToId p).toNat = i ∧ (s.clients.get i).isSome) ∧
      s.hmPseudoToId.size = 512 ∧ s.hmPseudoToId.loadTooHigh = false ∧ (∀ q, s.hmPseudoToId.slot q ≠ .removed) ∧
      ∀ e r, Step e s r → MapStep s.hmPseudoToId r.state.hmPseudoToId := by
  obtain ⟨accounts, htracked⟩ := run_tracked hrun
  have h := htracked.serves
  refine ⟨h.indexed, fun p hfind => ?_, h.size, h.not_loadTooHigh, h.marks, fun e r hstep => h.mapStep hstep⟩
  obtain ⟨⟨i, c⟩, ha⟩ := h.account_of_found hfind
  refine ⟨i, (h.get_account ha).2, ?_⟩
  rw [(h.clients i c).2 ⟨p, ha⟩]
  rfl

private theorem alice_holds :
    (handle (eventOn 5 (connectionRequest "alice" "secret" 2)) freshServer).map
      (fun r => (r.state.clients.get 0).bind fun c => cstr c.pseudo) = some (some (ascii "alice")) := by
  decide +kernel

theorem run_indexed_alice : ∃ hist s, Run hist s ∧ s.Holds 0 (ascii "alice") ∧ Indexed s := by
  obtain ⟨r, hr, hholds⟩ := Option.map_eq_some_iff.1 alice_holds
  have hrun := Run.step (e := eventOn 5 (connectionRequest "alice" "secret" 2)) run_freshServer ⟨20, hr⟩
  obtain ⟨c, hc, hpseudo⟩ := Option.bind_eq_some_iff.1 hholds
  exact ⟨_, _, hrun, ⟨c, hc, hpseudo⟩, (run_indexed hrun).1⟩

end NyanChat
