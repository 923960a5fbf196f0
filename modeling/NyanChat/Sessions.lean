import NyanChat.Server
import NyanChat.HashmapMap

/-!
# The accounts of the server

Abstractly the server keeps an account for each pseudo: an index of the client table with the client there.  A state
`Serves` a map of accounts when the hash map and the client table tell of these accounts, and each has a code file.
A connection request is refused and changes nothing, or it sets the account of its pseudo (`onConnection_cases`).
-/

namespace NyanChat

open OpenAddressing

/-- The index of a client in the table, and the client. -/
abbrev Account : Type := Fin NB_MAX_CONNECTED_CLIENTS × Client

/-- A pseudo that the server takes. -/
def ValidPseudo (p : Key) : Prop := MIN_NAME_LENGTH ≤ p.length ∧ p.length < MAX_NAME_LENGTH ∧ 0 ∉ p

/-- The state `s` keeps exactly these accounts. -/
structure Serves (s : ServerState) (accounts : Key → Option Account) : Prop where
  sound : s.hmPseudoToId.Sound
  size : s.hmPseudoToId.size = 512
  bindings : Denotes s.hmPseudoToId.slot fun p => (accounts p).map fun a => UInt32.ofNat a.1
  clients : ∀ (i : Fin NB_MAX_CONNECTED_CLIENTS) c, s.clients.get i = some c ↔ ∃ p, accounts p = some (i, c)
  pseudo : ∀ p i c, accounts p = some (i, c) → ValidPseudo p ∧ cstr c.pseudo = some p ∧ c.connected = true
  codes : ∀ p, s.codes (pathKey p) = none → accounts p = none
  count : s.hmPseudoToId.liveCount = s.clients.toList.countP Option.isSome
  marks : ∀ q, s.hmPseudoToId.slot q ≠ .removed

variable {s s' : ServerState} {accounts : Key → Option Account} {p : Key}

theorem ValidPseudo.validKey (h : ValidPseudo p) : ValidKey p := by
  obtain ⟨hmin, hmax, -⟩ := h
  have hname : MAX_NAME_LENGTH = 64 := rfl
  refine ⟨by unfold KEY_MAXLEN; omega, ?_⟩
  rintro rfl
  exact absurd hmin (by decide)

theorem validPseudo_of_cstr {a : Vector UInt8 MAX_NAME_LENGTH} (h : cstr a = some p)
    (hlen : MIN_NAME_LENGTH ≤ p.length) : ValidPseudo p := by
  obtain ⟨hzero, hmax, -⟩ := cstr_spec h
  exact ⟨hlen, hmax, hzero⟩

theorem createClient_pseudo (h : ValidPseudo p) (idPollSocket : Int32) (now : Int) :
    cstr (createClient p idPollSocket now).pseudo = some p := by
  rw [createClient]
  exact cstr_overlay _ h.2.2 h.2.1

theorem pathKey_injective : Function.Injective pathKey := fun _ _ h => List.append_cancel_left h

theorem toNat_ofNat_index (i : Fin NB_MAX_CONNECTED_CLIENTS) : (UInt32.ofNat i.val).toNat = i.val := by
  have hnb : NB_MAX_CONNECTED_CLIENTS = 196 := rfl
  rw [UInt32.toNat_ofNat']
  exact Nat.mod_eq_of_lt (by omega)

private theorem countP_set_some (clients : Vector (Option Client) NB_MAX_CONNECTED_CLIENTS)
    {i : ℕ} (hi : i < NB_MAX_CONNECTED_CLIENTS) (c : Client) :
    (clients.set i (some c)).toList.countP Option.isSome =
      clients.toList.countP Option.isSome + if clients[i].isSome then 0 else 1 := by
  have hlen : i < clients.toList.length := by rw [Vector.length_toList]; exact hi
  have hget : clients.toList[i] = clients[i] := Vector.getElem_toList ..
  rw [Vector.toList_set, List.countP_set hlen, hget]
  by_cases hsome : clients[i].isSome = true
  · have hpos : 0 < clients.toList.countP Option.isSome :=
      List.countP_pos_iff.2 ⟨clients[i], by rw [← hget]; exact List.getElem_mem hlen, hsome⟩
    rw [if_pos hsome, if_pos hsome, Option.isSome_some, if_pos rfl]
    omega
  · rw [if_neg hsome, if_neg hsome, Option.isSome_some, if_pos rfl]
    omega

namespace Serves

/-- An index of the table belongs to one pseudo. -/
theorem unique (h : Serves s accounts) {q : Key} {i : Fin NB_MAX_CONNECTED_CLIENTS} {c d : Client}
    (hp : accounts p = some (i, c)) (hq : accounts q = some (i, d)) : p = q := by
  have hc := (h.clients i c).2 ⟨p, hp⟩
  have hd := (h.clients i d).2 ⟨q, hq⟩
  obtain rfl := Option.some.inj (hc.symm.trans hd)
  exact Option.some.inj ((h.pseudo p i c hp).2.1.symm.trans (h.pseudo q i c hq).2.1)

theorem size_toNat (h : Serves s accounts) : s.hmPseudoToId.size.toNat = 512 := by
  rw [h.size]
  rfl

theorem liveCount_le (h : Serves s accounts) : s.hmPseudoToId.liveCount ≤ NB_MAX_CONNECTED_CLIENTS := by
  have := List.countP_le_length (p := Option.isSome) (l := s.clients.toList)
  rw [h.count]
  rwa [Vector.length_toList] at this

theorem not_loadTooHigh (h : Serves s accounts) : s.hmPseudoToId.loadTooHigh = false := by
  have hle := h.liveCount_le
  have hnb : NB_MAX_CONNECTED_CLIENTS = 196 := rfl
  rw [Hashmap.loadTooHigh, h.sound.count_eq, h.size_toNat, decide_eq_false_iff_not]
  omega

/-- The map has room for a pseudo, and the insertion comes back. -/
theorem insert_returns (h : Serves s accounts) (hp : ValidKey p) (value : UInt32) :
    ∃ r, hashmapInsert 513 s.hmPseudoToId p value = some r := by
  have hle := h.liveCount_le
  have hnb : NB_MAX_CONNECTED_CLIENTS = 196 := rfl
  have hroom : s.hmPseudoToId.liveCount < s.hmPseudoToId.size.toNat := by rw [h.size_toNat]; omega
  obtain ⟨r, hr⟩ := insertFrom_returns h.sound hroom h.marks p value
  rw [h.size_toNat] at hr
  exact ⟨r, by rw [hashmapInsert_low hp h.not_loadTooHigh, hr]⟩

/-- The search finds the account, and no binding without a client. -/
theorem findClient_eq (h : Serves s accounts) (hp : ValidKey p) (fuel : ℕ) :
    findClient fuel s p = some (s, accounts p) := by
  unfold findClient
  have hfind := hashmapFind_ne_iff h.sound h.bindings hp
  have hget := hashmapGet_eq h.sound h.bindings hp
  cases hacc : accounts p with
  | none =>
    rw [hacc] at hfind
    have hno : ¬ hashmapFind s.hmPseudoToId p ≠ -1 := fun hne => by
      obtain ⟨v, hv⟩ := hfind.1 hne
      cases hv
    rw [if_neg hno]
  | some a =>
    obtain ⟨i, c⟩ := a
    rw [hacc] at hfind hget
    have hidx : (hashmapGet s.hmPseudoToId p).toNat = i.val := by
      rw [hget]
      exact toNat_ofNat_index i
    rw [if_pos (hfind.2 ⟨_, rfl⟩)]
    simp only [hidx]
    rw [dif_pos i.2]
    have hclient : s.clients[i.val] = some c := (h.clients i c).2 ⟨p, hacc⟩
    simp only [hclient]

/-- The bindings that the hash map holds for the accounts. -/
theorem map_update (accounts : Key → Option Account) (p : Key) (a : Account) :
    (fun q => (Function.update accounts p (some a) q).map fun a => UInt32.ofNat a.1.val) =
      Function.update (fun q => (accounts q).map fun a => UInt32.ofNat a.1.val) p (some (UInt32.ofNat a.1.val)) := by
  funext q
  rcases eq_or_ne q p with rfl | hq
  · rw [Function.update_self, Function.update_self]
    rfl
  · rw [Function.update_of_ne hq, Function.update_of_ne hq]

/-- The account of a pseudo is set at an index that no other pseudo has. -/
theorem put (h : Serves s accounts) {i : Fin NB_MAX_CONNECTED_CLIENTS} {c : Client} {hm : Hashmap}
    (hvalid : ValidPseudo p) (hother : ∀ q d, accounts q = some (i, d) → q = p)
    (hindex : ∀ j d, accounts p = some (j, d) → j = i)
    (hpseudo : cstr c.pseudo = some p) (hconn : c.connected = true) (hsound : hm.Sound) (hsize : hm.size = 512)
    (hbind : Denotes hm.slot
      (Function.update (fun q => (accounts q).map fun a => UInt32.ofNat a.1.val) p (some (UInt32.ofNat i.val))))
    (hcount : hm.liveCount = s.hmPseudoToId.liveCount + if (s.clients.get i).isSome then 0 else 1)
    (hmarks : ∀ q, hm.slot q ≠ .removed) (code : List UInt8) :
    Serves
      { clients := (s.setClient i c).clients
        hmPseudoToId := hm
        codes := Function.update s.codes (pathKey p) (some code) }
      (Function.update accounts p (some (i, c))) := by
  constructor
  case sound => exact hsound
  case size => exact hsize
  case bindings =>
    rw [map_update]
    exact hbind
  case clients =>
    intro j d
    by_cases hij : i = j
    · subst hij
      have hself : (s.setClient i c).clients.get i = some c := Vector.getElem_set_self i.2
      rw [hself]
      constructor
      · intro hd
        cases hd
        exact ⟨p, Function.update_self ..⟩
      · rintro ⟨q, hq⟩
        rcases eq_or_ne q p with rfl | hqp
        · rw [Function.update_self] at hq
          cases hq
          rfl
        · rw [Function.update_of_ne hqp] at hq
          exact absurd (hother q d hq) hqp
    · have hne : i.val ≠ j.val := fun h => hij (Fin.ext h)
      have hget : (s.setClient i c).clients.get j = s.clients.get j := Vector.getElem_set_ne i.2 j.2 hne
      rw [hget]
      refine (h.clients j d).trans ⟨?_, ?_⟩
      · rintro ⟨q, hq⟩
        refine ⟨q, ?_⟩
        rw [Function.update_of_ne, hq]
        rintro rfl
        exact hij (hindex j d hq).symm
      · rintro ⟨q, hq⟩
        rcases eq_or_ne q p with rfl | hqp
        · rw [Function.update_self] at hq
          cases hq
          exact absurd rfl hij
        · rw [Function.update_of_ne hqp] at hq
          exact ⟨q, hq⟩
  case pseudo =>
    intro q j d hq
    rcases eq_or_ne q p with rfl | hqp
    · rw [Function.update_self] at hq
      cases hq
      exact ⟨hvalid, hpseudo, hconn⟩
    · rw [Function.update_of_ne hqp] at hq
      exact h.pseudo q j d hq
  case codes =>
    intro q
    rcases eq_or_ne q p with rfl | hqp
    · simp
    · simp only [Function.update_of_ne (pathKey_injective.ne hqp), Function.update_of_ne hqp]
      exact h.codes q
  case count =>
    -- the map gets a binding exactly when the table gets a client
    rw [hcount, h.count]
    exact (countP_set_some s.clients i.2 c).symm
  case marks => exact hmarks

theorem known (h : Serves s accounts) {i : Fin NB_MAX_CONNECTED_CLIENTS} {c c' : Client}
    (hp : accounts p = some (i, c)) (hpseudo : cstr c'.pseudo = some p) (hconn : c'.connected = true)
    (code : List UInt8) :
    Serves
      { clients := (s.setClient i c').clients
        hmPseudoToId := s.hmPseudoToId
        codes := Function.update s.codes (pathKey p) (some code) }
      (Function.update accounts p (some (i, c'))) := by
  refine h.put (h.pseudo p i c hp).1 (fun q d hq => h.unique hq hp) (fun j d hj => ?_) hpseudo hconn h.sound h.size
    ?_ ?_ h.marks code
  · rw [hp] at hj
    cases hj
    rfl
  · have hsame : some (UInt32.ofNat i.val) = (accounts p).map fun a => UInt32.ofNat a.1.val := by rw [hp]; rfl
    rw [hsame, Function.update_eq_self]
    exact h.bindings
  · rw [(h.clients i c).2 ⟨p, hp⟩]
    rfl

theorem added (h : Serves s accounts) {i : Fin NB_MAX_CONNECTED_CLIENTS} {c : Client} (hp : accounts p = none)
    (hvalid : ValidPseudo p) (hempty : s.clients.get i = none) (hpseudo : cstr c.pseudo = some p)
    (hconn : c.connected = true)
    {fuel : ℕ} {r : Hashmap × Int} (hinsert : hashmapInsert fuel s.hmPseudoToId p (UInt32.ofNat i.val) = some r)
    (code : List UInt8) :
    Serves
      { clients := (s.setClient i c).clients
        hmPseudoToId := r.1
        codes := Function.update s.codes (pathKey p) (some code) }
      (Function.update accounts p (some (i, c))) := by
  rcases fuel with _ | fuel
  · cases hinsert
  rw [hashmapInsert_low hvalid.validKey h.not_loadTooHigh] at hinsert
  rcases insertFrom_cases h.sound h.bindings hvalid.validKey hinsert with
    ⟨-, -, hsound, hbind, hsize, hcount, hmarks⟩ | ⟨-, ⟨v, hv⟩, -⟩
  · refine h.put hvalid (fun q d hq => ?_) (fun j d hj => ?_) hpseudo hconn hsound (hsize.trans h.size) hbind ?_
      (fun q hq => h.marks q (hmarks q hq)) code
    · rw [(h.clients i d).2 ⟨q, hq⟩] at hempty
      cases hempty
    · rw [hp] at hj
      cases hj
    · rw [hcount, hempty]
      rfl
  · rw [hp] at hv
    cases hv

end Serves

/-! ### Connection requests -/

theorem emptyIndex_eq_some {clients : Vector (Option Client) NB_MAX_CONNECTED_CLIENTS}
    {i : Fin NB_MAX_CONNECTED_CLIENTS} (h : emptyIndex clients = some i) : clients.get i = none := by
  have hnone := List.find?_some h
  exact Option.isNone_iff_eq_none.1 hnone

/-- The stored code of a pseudo, if any, is the code of the message. -/
def CodeMatches (s : ServerState) (p : Key) (msg : Message) : Prop :=
  ∀ stored, s.codes (pathKey p) = some stored → strcmpEqual msg.msg.toList stored = some true

theorem refusal_eq_none {clock : Clock} {msg : Message} {cli : Option Client}
    (h : refusal clock s p msg cli = some none) :
    CodeMatches s p msg ∧ ∀ stored, s.codes (pathKey p) = some stored → ∀ c, cli = some c → c.connected = true →
      TIMEOUT_INACTIVE ≤ clock.check - c.lastActivity := by
  unfold refusal at h
  split at h
  · rename_i hnone
    refine ⟨fun stored hs => ?_, fun stored hs => ?_⟩ <;> rw [hnone] at hs <;> cases hs
  · rename_i stored hstored
    split at h
    · cases h
    · cases h
    · rename_i hsame
      refine ⟨fun stored' hs => ?_, fun stored' hs c hc hconn => ?_⟩
      · rw [hstored] at hs
        cases hs
        exact hsame
      · subst hc
        dsimp only at h
        split at h
        · cases h
        · rename_i hactive
          by_contra hlt
          exact hactive ⟨hconn, hlt⟩

theorem storeCode_eq_some {msg : Message} {s₁ s₂ : ServerState} (h : storeCode s₁ p msg = some s₂) :
    s₂ = { s₁ with
      codes := Function.update s₁.codes (pathKey p) (some (msg.msg.toList.take msg.msgLength.toNat)) } := by
  unfold storeCode at h
  split at h
  · cases h
    rfl
  · cases h

/-- The client of `takeCare` was known, or is a new one in an empty slot. -/
inductive Cared (fuel : ℕ) (clock : Clock) (s : ServerState) (p : Key) (msg : Message) :
    Option (Fin NB_MAX_CONNECTED_CLIENTS × Client) → ServerState → Fin NB_MAX_CONNECTED_CLIENTS → Client → Prop
  | known {i : Fin NB_MAX_CONNECTED_CLIENTS} {c d : Client} :
      d = { c with idPollSocketProxy := msg.proxyClientSocket, lastActivity := clock.store } →
      Cared fuel clock s p msg (some (i, c)) (s.setClient i d) i d
  | added {i : Fin NB_MAX_CONNECTED_CLIENTS} {c : Client} {r : Hashmap × Int} : emptyIndex s.clients = some i →
      c = createClient p msg.proxyClientSocket clock.store →
      hashmapInsert fuel s.hmPseudoToId p (UInt32.ofNat i) = some r →
      Cared fuel clock s p msg none { s.setClient i c with hmPseudoToId := r.1 } i c

theorem takeCare_cared {fuel : ℕ} {clock : Clock} {msg : Message}
    {cli : Option (Fin NB_MAX_CONNECTED_CLIENTS × Client)} {s₁ : ServerState} {i : Fin NB_MAX_CONNECTED_CLIENTS}
    {c : Client} (hcare : takeCare fuel clock s p msg cli = some (some (s₁, i, c))) :
    Cared fuel clock s p msg cli s₁ i c := by
  cases cli with
  | some a =>
    cases hcare
    exact .known rfl
  | none =>
    simp only [takeCare] at hcare
    split at hcare
    · cases hcare
    · rename_i j hempty
      obtain ⟨r, hinsert, heq⟩ := Option.map_eq_some_iff.1 hcare
      cases heq
      exact .added hempty rfl hinsert

/-- What `onConnection` does to the account of a pseudo when it accepts the request. -/
structure Accepts (clock : Clock) (msg : Message) (p : Key) (s s' : ServerState) (accounts : Key → Option Account)
    (i : Fin NB_MAX_CONNECTED_CLIENTS) (c : Client) : Prop where
  serves : Serves s' (Function.update accounts p (some (i, c)))
  code : CodeMatches s p msg
  inactive : ∀ a, accounts p = some a → TIMEOUT_INACTIVE ≤ clock.check - a.2.lastActivity
  lastActivity : c.lastActivity = clock.store
  socket : c.idPollSocketProxy = msg.proxyClientSocket
  codes : s'.codes = Function.update s.codes (pathKey p) (some (msg.msg.toList.take msg.msgLength.toNat))

/-- The client that was taken care of has the account of its pseudo, also after its code was stored. -/
theorem serves_of_takeCare (h : Serves s accounts) (hp : ValidPseudo p) {fuel : ℕ} {clock : Clock} {msg : Message}
    {s₁ s₂ : ServerState} {i : Fin NB_MAX_CONNECTED_CLIENTS} {c : Client}
    (hcare : takeCare fuel clock s p msg (accounts p) = some (some (s₁, i, c)))
    (hstore : storeCode s₁ p msg = some s₂) :
    Serves (s₂.setClient i { c with connected := true })
      (Function.update accounts p (some (i, { c with connected := true }))) := by
  obtain rfl := storeCode_eq_some hstore
  generalize hacc : accounts p = cli at hcare
  cases takeCare_cared hcare with
  | @known _ d _ hd =>
    obtain ⟨-, hpseudo, -⟩ := h.pseudo p i d hacc
    simp only [ServerState.setClient, Vector.set_set]
    refine h.known hacc ?_ rfl _
    rw [hd]
    exact hpseudo
  | added hempty hc hinsert =>
    simp only [ServerState.setClient, Vector.set_set]
    refine h.added hacc hp (emptyIndex_eq_some hempty) ?_ rfl hinsert _
    rw [hc]
    exact createClient_pseudo hp msg.proxyClientSocket clock.store

theorem accepts_of_takeCare (h : Serves s accounts) (hp : ValidPseudo p) {fuel : ℕ} {clock : Clock}
    {msg : Message} (hrefusal : refusal clock s p msg ((accounts p).map Prod.snd) = some none) {s₁ s₂ : ServerState}
    {i : Fin NB_MAX_CONNECTED_CLIENTS} {c : Client}
    (hcare : takeCare fuel clock s p msg (accounts p) = some (some (s₁, i, c)))
    (hstore : storeCode s₁ p msg = some s₂) :
    Accepts clock msg p s (s₂.setClient i { c with connected := true }) accounts i { c with connected := true } := by
  have hserves := serves_of_takeCare h hp hcare hstore
  obtain ⟨hcode, hactive⟩ := refusal_eq_none hrefusal
  have hinactive : ∀ a, accounts p = some a → TIMEOUT_INACTIVE ≤ clock.check - a.2.lastActivity := by
    intro a hacc
    -- an account has a code file
    have hfile : s.codes (pathKey p) ≠ none := fun hnone => by
      rw [h.codes p hnone] at hacc
      cases hacc
    obtain ⟨stored, hstored⟩ := Option.ne_none_iff_exists'.1 hfile
    obtain ⟨-, -, hconn⟩ := h.pseudo p a.1 a.2 hacc
    exact hactive stored hstored a.2 (by rw [hacc]; rfl) hconn
  obtain rfl := storeCode_eq_some hstore
  generalize accounts p = cli at hcare
  cases takeCare_cared hcare with
  | known hd =>
    obtain rfl := hd
    exact ⟨hserves, hcode, hinactive, rfl, rfl, rfl⟩
  | added _ hc _ =>
    obtain rfl := hc
    exact ⟨hserves, hcode, hinactive, rfl, rfl, rfl⟩

/-- The ways in which a connection request of a client `cli` ends. -/
inductive ConnectionBranch (fuel : ℕ) (clock : Clock) (locals : Locals) (sock : Int) (p : Key) (msg : Message)
    (s : ServerState) (cli : Option (Fin NB_MAX_CONNECTED_CLIENTS × Client)) : ServerState → List Sent → Prop
  | refused {text : List UInt8} : refusal clock s p msg (cli.map Prod.snd) = some (some text) →
      ConnectionBranch fuel clock locals sock p msg s cli s [⟨sock, errorReply text msg locals.errorMsg⟩]
  | full : refusal clock s p msg (cli.map Prod.snd) = some none → takeCare fuel clock s p msg cli = some none →
      ConnectionBranch fuel clock locals sock p msg s cli s
        [⟨sock, errorReply ERROR_ALREADY_MAX_CLIENTS msg locals.errorMsg⟩]
  | accepted {s₁ s₂ : ServerState} {i : Fin NB_MAX_CONNECTED_CLIENTS} {c : Client} :
      refusal clock s p msg (cli.map Prod.snd) = some none →
      takeCare fuel clock s p msg cli = some (some (s₁, i, c)) → storeCode s₁ p msg = some s₂ →
      ConnectionBranch fuel clock locals sock p msg s cli (s₂.setClient i { c with connected := true })
        [⟨sock, connectedReply msg locals.connectedMsg⟩]

theorem onConnection_branch (h : Serves s accounts) (hp : ValidPseudo p) {fuel : ℕ} {clock : Clock} {locals : Locals}
    {sock : Int} {msg : Message} {sent : List Sent}
    (hrun : onConnection fuel clock locals sock p msg s = some (s', sent)) :
    ConnectionBranch fuel clock locals sock p msg s (accounts p) s' sent := by
  unfold onConnection at hrun
  obtain ⟨found, hfind, hrun⟩ := Option.bind_eq_some_iff.1 hrun
  obtain rfl := Option.some.inj (hfind.symm.trans (h.findClient_eq hp.validKey fuel))
  obtain ⟨refused, hrefusal, hrun⟩ := Option.bind_eq_some_iff.1 hrun
  cases refused with
  | some text =>
    cases hrun
    exact .refused hrefusal
  | none =>
    obtain ⟨cared, hcare, hrun⟩ := Option.bind_eq_some_iff.1 hrun
    cases cared with
    | none =>
      cases hrun
      exact .full hrefusal hcare
    | some cared =>
      obtain ⟨s₁, i, c⟩ := cared
      obtain ⟨s₂, hstore, hrun⟩ := Option.bind_eq_some_iff.1 hrun
      cases hrun
      exact .accepted hrefusal hcare hstore

theorem onConnection_cases (h : Serves s accounts) (hp : ValidPseudo p) {fuel : ℕ} {clock : Clock} {locals : Locals}
    {sock : Int} {msg : Message} {sent : List Sent}
    (hrun : onConnection fuel clock locals sock p msg s = some (s', sent)) :
    (s' = s ∧ ∃ text, sent = [⟨sock, errorReply text msg locals.errorMsg⟩]) ∨
      (sent = [⟨sock, connectedReply msg locals.connectedMsg⟩] ∧ ∃ i c, Accepts clock msg p s s' accounts i c) := by
  cases onConnection_branch h hp hrun with
  | refused _ => exact Or.inl ⟨rfl, _, rfl⟩
  | full _ _ => exact Or.inl ⟨rfl, _, rfl⟩
  | accepted hrefusal hcare hstore => exact Or.inr ⟨rfl, _, _, accepts_of_takeCare h hp hrefusal hcare hstore⟩

/-- With defined strings a connection request is answered. -/
theorem onConnection_returns (h : Serves s accounts) (hp : ValidPseudo p) {msg : Message}
    (hlen : msg.msgLength.toNat ≤ MAX_MSG_LENGTH)
    (hdefined : ∀ stored, s.codes (pathKey p) = some stored → ∃ b, strcmpEqual msg.msg.toList stored = some b)
    (clock : Clock) (locals : Locals) (sock : Int) :
    ∃ r, onConnection 513 clock locals sock p msg s = some r := by
  have hrefusal : ∃ o, refusal clock s p msg ((accounts p).map Prod.snd) = some o := by
    unfold refusal
    split
    · exact ⟨_, rfl⟩
    · rename_i stored hstored
      obtain ⟨b, hb⟩ := hdefined stored hstored
      rw [hb]
      cases b with
      | false => exact ⟨_, rfl⟩
      | true =>
        dsimp only
        split
        · split <;> exact ⟨_, rfl⟩
        · exact ⟨_, rfl⟩
  have hcare : ∃ o, takeCare 513 clock s p msg (accounts p) = some o := by
    cases accounts p with
    | some a => exact ⟨_, rfl⟩
    | none =>
      simp only [takeCare]
      split
      · exact ⟨_, rfl⟩
      · rename_i i _
        obtain ⟨r, hr⟩ := h.insert_returns hp.validKey (UInt32.ofNat i)
        rw [hr]
        exact ⟨_, rfl⟩
  obtain ⟨refused, hrefusal⟩ := hrefusal
  obtain ⟨cared, hcare⟩ := hcare
  unfold onConnection
  simp only [h.findClient_eq hp.validKey, Option.bind_eq_bind, Option.bind_some, hrefusal]
  cases refused with
  | some text => exact ⟨_, rfl⟩
  | none =>
    simp only [hcare, Option.bind_some]
    cases cared with
    | none => exact ⟨_, rfl⟩
    | some cared =>
      obtain ⟨s₁, i, c⟩ := cared
      simp only [storeCode, if_pos hlen, Option.bind_some]
      exact ⟨_, rfl⟩

/-! ### The handler -/

theorem onText_state (h : Serves s accounts) (hp : ValidPseudo p) {S : Syndromes} {fuel : ℕ} {locals : Locals}
    {sock : Int} {msg : Message} {r : Handled} (hrun : onText S fuel locals sock p msg s = some r) : r.state = s := by
  unfold onText at hrun
  obtain ⟨found, hfind, hrun⟩ := Option.bind_eq_some_iff.1 hrun
  obtain rfl := Option.some.inj (hfind.symm.trans (h.findClient_eq hp.validKey fuel))
  obtain ⟨corrected, -, hrun⟩ := Option.bind_eq_some_iff.1 hrun
  dsimp only at hrun
  split at hrun
  · split at hrun
    · obtain ⟨copies, -, hrun⟩ := Option.bind_eq_some_iff.1 hrun
      cases hrun
      rfl
    · cases hrun
      rfl
  · cases hrun
    rfl

/-- The branches of `on_msg_received`. -/
inductive Branch (S : Syndromes) (fuel : ℕ) (clock : Clock) (locals : Locals) (sock : Int) (msg : Message)
    (s : ServerState) : Handled → Prop
  | noPseudo {p : Key} : cstr msg.srcPseudo = some p → p.length < MIN_NAME_LENGTH →
      Branch S fuel clock locals sock msg s ⟨s, [], msg⟩
  | connection {p : Key} {s' : ServerState} {sent : List Sent} : cstr msg.srcPseudo = some p → ValidPseudo p →
      msg.msgType = MSG_CONNECTION_CLIENT → onConnection fuel clock locals sock p msg s = some (s', sent) →
      Branch S fuel clock locals sock msg s ⟨s', sent, msg⟩
  | text {p : Key} {r : Handled} : cstr msg.srcPseudo = some p → ValidPseudo p →
      msg.msgType = MSG_STD_CLIENT_SERVER → onText S fuel locals sock p msg s = some r →
      Branch S fuel clock locals sock msg s r
  | other {p : Key} : cstr msg.srcPseudo = some p → ValidPseudo p → msg.msgType ≠ MSG_CONNECTION_CLIENT →
      msg.msgType ≠ MSG_STD_CLIENT_SERVER → Branch S fuel clock locals sock msg s ⟨s, [], msg⟩

theorem onMsgReceived_branch {S : Syndromes} {fuel : ℕ} {clock : Clock} {locals : Locals} {sock : Int}
    {msg : Message} {r : Handled} (hrun : onMsgReceived S fuel clock locals sock msg s = some r) :
    Branch S fuel clock locals sock msg s r := by
  unfold onMsgReceived at hrun
  obtain ⟨p, hp, hrun⟩ := Option.bind_eq_some_iff.1 hrun
  dsimp only at hrun
  split at hrun
  · rename_i hshort
    cases hrun
    exact .noPseudo hp hshort
  · rename_i hlong
    have hvalid := validPseudo_of_cstr hp (Nat.not_lt.1 hlong)
    split at hrun
    · rename_i htype
      obtain ⟨⟨s', sent⟩, hconn, hrun⟩ := Option.bind_eq_some_iff.1 hrun
      cases hrun
      exact .connection hp hvalid htype hconn
    · rename_i htype
      split at hrun
      · rename_i htext
        exact .text hp hvalid htext hrun
      · rename_i hother
        cases hrun
        exact .other hp hvalid htype hother

end NyanChat
