import NyanChat.Display
import Mathlib.Algebra.BigOperators.Group.List.Basic
import Mathlib.Data.List.GetD
import Mathlib.Algebra.Order.BigOperators.Group.List

/-!
# The messages in the left panel

`displayLeftPanel` shows the messages around the focused one.  In a terminal that is large enough every message it
prints is a received one, and the focused one is among them, with two exceptions (`displayLeftPanel_shows_iff`).  When
the focused message is near the top, the panel is filled up to its width instead of its height, and the messages above
the focused one may be too many for that.  When the focused message is in the middle and the messages above it leave
room at the top, the index of the first message stays `-1`.
-/

namespace NyanChat.Ansi

variable {s : Screen} {p : PanelState} {k : ℕ}

/-! ### Heights -/

/-- The rows of a message: three for its header, then its text in lines of length `len`. -/
def messageRows (len : Int) (m : Message) : Int := 4 + ((m.msgLength.toNat : Int) - 1) / len

/-- The rows of the received messages. -/
def panelRows (s : Screen) (c : AnsiState) : List Int :=
  (c.msgsDefaultChannel.take c.nbMsgsDefaultChannel).map (messageRows (s.panelWidth - 3))

theorem toInt_msgLength {x : UInt32} (h : x.toNat < MAX_MSG_LENGTH) : x.toInt32.toInt = x.toNat := by
  have hx : 2 * x.toBitVec.toNat < 2 ^ 32 := by
    show 2 * x.toNat < 2 ^ 32
    rw [MAX_MSG_LENGTH] at h
    omega
  exact BitVec.toInt_eq_toNat_of_lt hx

/-- The loop over the lines, when `r` characters are left: one turn for each line but the last one. -/
private theorem turns_lines {x len : Int} (hlen : 0 < len) (fuel : ℕ) :
    ∀ {r h : Int}, 0 < r → r ≤ fuel →
      Loop.turns (lineTurn x len) fuel (x - r, h) = some (x - r + len * ((r - 1) / len), h + (r - 1) / len) := by
  induction fuel with
  | zero =>
    intro r h hr hfuel
    exact absurd hfuel (by omega)
  | succ fuel ih =>
    intro r h hr hfuel
    rw [Loop.turns, lineTurn]
    by_cases hlong : r > len
    · have hturn : x - (x - r) > len := by omega
      rw [if_pos hturn, if_neg Bool.false_ne_true]
      have hnext : x - r + len = x - (r - len) := by omega
      have hdiv : (r - 1) / len = (r - len - 1) / len + 1 := by
        rw [show r - 1 = r - len - 1 + 1 * len by omega, Int.add_mul_ediv_right _ _ hlen.ne']
      rw [hnext, ih (by omega) (by omega), hdiv, Int.mul_add, Int.mul_one]
      exact congrArg some (Prod.ext (by dsimp only; omega) (by dsimp only; omega))
    · have hturn : ¬ x - (x - r) > len := by omega
      rw [if_neg hturn, if_pos rfl, Int.ediv_eq_zero_of_lt (by omega) (by omega), Int.mul_zero, Int.add_zero,
        Int.add_zero]

theorem calcOneMsgTotHeight_eq {m : Message} (len : Int) (hlen : 0 < len) (hpos : 1 ≤ m.msgLength.toNat)
    (hlt : m.msgLength.toNat < MAX_MSG_LENGTH) {fuel : ℕ} (hfuel : MAX_MSG_LENGTH ≤ fuel) :
    calcOneMsgTotHeight fuel m len = some (messageRows len m) := by
  have hrun := turns_lines (x := m.msgLength.toNat) hlen fuel (r := m.msgLength.toNat) (h := 3) (by omega) (by omega)
  rw [Int.sub_self, Int.zero_add] at hrun
  -- some characters are left for the last line
  have hmod := Int.emod_nonneg ((m.msgLength.toNat : Int) - 1) hlen.ne'
  have hrest := Int.mul_ediv_add_emod ((m.msgLength.toNat : Int) - 1) len
  have hquot : 0 ≤ len * (((m.msgLength.toNat : Int) - 1) / len) :=
    Int.mul_nonneg hlen.le (Int.ediv_nonneg (by omega) hlen.le)
  rw [calcOneMsgTotHeight, toInt_msgLength hlt]
  refine (congrArg (Option.bind · _) hrun).trans ?_
  show some (if _ then _ else _) = _
  rw [MAX_MSG_LENGTH] at hlt
  rw [Int.emod_eq_of_lt (by omega) (by omega), if_pos (by omega), messageRows]
  exact congrArg some (by omega)

/-- A terminal that is large enough, with a focused message. -/
structure PanelReady (s : Screen) (p : PanelState) (k : ℕ) : Prop where
  width : MIN_TERMINAL_WIDTH ≤ s.winWidth
  height : MIN_TERMINAL_HEIGHT ≤ s.winHeight
  logo : s.logoMainTx = LOGO_MAIN_TX
  dest : p.state.client.typeCurrentDest = MSG_FLAG_DEFAULT_CHANNEL
  slots : p.state.nbMsgsDefaultChannel ≤ p.state.msgsDefaultChannel.length
  heights : p.heightsMsgsDefaultChannel.length = p.state.msgsDefaultChannel.length
  lengths : ∀ m ∈ p.state.msgsDefaultChannel.take p.state.nbMsgsDefaultChannel,
    1 ≤ m.msgLength.toNat ∧ m.msgLength.toNat < MAX_MSG_LENGTH
  cursor : p.state.dispMsgsCursor = k
  valid : k < p.state.nbMsgsDefaultChannel
  /-- The cursor is an `int`. -/
  int : k < 2 ^ 31

namespace PanelReady

variable (h : PanelReady s p k)
include h

theorem panelWidth_ge : 38 ≤ s.panelWidth := by
  have hwidth := h.width
  rw [Screen.panelWidth, Screen.panelXEnd, Screen.xBarriereTop, h.logo, panelXStart]
  rw [MIN_TERMINAL_WIDTH] at hwidth
  rw [LOGO_MAIN_TX]
  omega

theorem panelHeight_ge : 46 ≤ s.panelHeight := by
  have hheight := h.height
  rw [Screen.panelHeight, Screen.panelYEnd, Screen.yBarriereBottom, panelYStart]
  rw [MIN_TERMINAL_HEIGHT] at hheight
  omega

theorem length_rows : (panelRows s p.state).length = p.state.nbMsgsDefaultChannel := by
  rw [panelRows, List.length_map, List.length_take, Nat.min_eq_left h.slots]

/-- A message has at least four rows, and in the narrowest panel at most 18. -/
theorem rows_bounds {row : Int} (hrow : row ∈ panelRows s p.state) : 4 ≤ row ∧ row ≤ 18 := by
  obtain ⟨m, hm, rfl⟩ := List.mem_map.1 hrow
  obtain ⟨hpos, hlt⟩ := h.lengths m hm
  have hwidth := h.panelWidth_ge
  rw [MAX_MSG_LENGTH] at hlt
  have hnonneg : 0 ≤ ((m.msgLength.toNat : Int) - 1) / (s.panelWidth - 3) := Int.ediv_nonneg (by omega) (by omega)
  have hlt15 : ((m.msgLength.toNat : Int) - 1) / (s.panelWidth - 3) < 15 :=
    Int.ediv_lt_of_lt_mul (by omega) (by omega)
  rw [messageRows]
  omega

/-- The heights of the received messages are written at their indices. -/
theorem calcMsgsTotHeight_eq {fuel : ℕ} (hfuel : MAX_MSG_LENGTH ≤ fuel) :
    ∃ heights, calcMsgsTotHeight fuel p s.panelWidth = some ⟨p.state, heights⟩ ∧
      ∀ j < p.state.nbMsgsDefaultChannel, heights[j]? = (panelRows s p.state)[j]? := by
  have hslots := h.slots
  have hwidth := h.panelWidth_ge
  obtain ⟨heights, hrun, -, hrows⟩ := Loop.foldlM_range (s := p.heightsMsgsDefaultChannel)
    (n := p.state.nbMsgsDefaultChannel)
    (f := fun (heights : List Int) j => do
      let msg ← p.state.msgsDefaultChannel[j]?
      let height ← calcOneMsgTotHeight fuel msg (s.panelWidth - 3)
      if j < heights.length then some (heights.set j height) else none)
    (fun i heights => heights.length = p.state.msgsDefaultChannel.length ∧
      ∀ j < i, heights[j]? = (panelRows s p.state)[j]?)
    ⟨h.heights, fun j hj => absurd hj (Nat.not_lt_zero j)⟩
    (by
      rintro i hi heights ⟨hlen, hrows⟩
      have hlt : i < p.state.msgsDefaultChannel.length := by omega
      have hmem : p.state.msgsDefaultChannel[i] ∈
          p.state.msgsDefaultChannel.take p.state.nbMsgsDefaultChannel :=
        List.mem_take_iff_getElem.2 ⟨i, by omega, rfl⟩
      obtain ⟨hpos, hmax⟩ := h.lengths _ hmem
      have hheight := calcOneMsgTotHeight_eq (s.panelWidth - 3) (by omega) hpos hmax hfuel
      refine ⟨heights.set i (messageRows (s.panelWidth - 3) p.state.msgsDefaultChannel[i]), ?_,
        by rw [List.length_set, hlen], fun j hj => ?_⟩
      · rw [List.getElem?_eq_getElem hlt]
        show (calcOneMsgTotHeight fuel _ _).bind _ = _
        rw [hheight]
        exact if_pos (by omega)
      · rw [List.getElem?_set]
        rcases Nat.eq_or_lt_of_le (Nat.lt_succ_iff.1 hj) with rfl | hlt'
        · rw [if_pos rfl, if_pos (by omega), panelRows, List.getElem?_map, List.getElem?_take_of_lt hi,
            List.getElem?_eq_getElem hlt]
          rfl
        · rw [if_neg hlt'.ne', hrows j hlt'])
  exact ⟨heights, by rw [calcMsgsTotHeight, hrun]; rfl, hrows⟩

end PanelReady

/-! ### Sums of heights -/

variable {heights rows : List Int} {ids : List ℕ}

/-- The rows of some messages with the gaps behind them. -/
def taken (rows : List Int) (ids : List ℕ) : Int := (ids.map fun i => rows.getD i 0 + 1).sum

theorem taken_eq (rows : List Int) (ids : List ℕ) :
    taken rows ids = (ids.map fun i => rows.getD i 0).sum + ids.length := by
  induction ids with
  | nil => rfl
  | cons i ids ih =>
    unfold taken at ih ⊢
    rw [List.map_cons, List.sum_cons, ih, List.map_cons, List.sum_cons, List.length_cons]
    omega

theorem map_rows_range (hk : k ≤ rows.length) : (List.range k).map (fun i => rows.getD i 0) = rows.take k := by
  apply List.ext_getElem
  · rw [List.length_map, List.length_range, List.length_take, Nat.min_eq_left hk]
  · intro i hi hi'
    rw [List.length_take] at hi'
    rw [List.getElem_map, List.getElem_range, List.getElem_take, List.getD_eq_getElem _ _ (by omega)]

theorem map_rows_range' : (List.range' k (rows.length - k)).map (fun i => rows.getD i 0) = rows.drop k := by
  apply List.ext_getElem
  · rw [List.length_map, List.length_range', List.length_drop]
  · intro i hi hi'
    rw [List.length_drop] at hi'
    rw [List.getElem_map, List.getElem_range'_1, List.getElem_drop, List.getD_eq_getElem _ _ (by omega)]

theorem taken_range (hk : k ≤ rows.length) : taken rows (List.range k) = (rows.take k).sum + k := by
  rw [taken_eq, map_rows_range hk, List.length_range]

theorem taken_range' (rows : List Int) (k : ℕ) :
    taken rows (List.range' k (rows.length - k)) = (rows.drop k).sum + (rows.length - k : ℕ) := by
  rw [taken_eq, map_rows_range', List.length_range']

theorem taken_reverse (rows : List Int) (ids : List ℕ) : taken rows ids.reverse = taken rows ids := by
  rw [taken, taken, List.map_reverse, List.sum_reverse]

theorem foldl_add_rows (rows : List Int) (ids : List ℕ) (cy : Int) :
    ids.foldl (fun cy i => cy + rows.getD i 0 + 1) cy = cy + taken rows ids := by
  induction ids generalizing cy with
  | nil => exact (Int.add_zero cy).symm
  | cons i ids ih =>
    rw [List.foldl_cons, ih, taken, taken, List.map_cons, List.sum_cons]
    omega

theorem foldl_sub_rows (rows : List Int) (ids : List ℕ) (y : Int) :
    ids.foldl (fun y i => y - rows.getD i 0 - 1) y = y - taken rows ids := by
  induction ids generalizing y with
  | nil => exact (Int.sub_zero y).symm
  | cons i ids ih =>
    rw [List.foldl_cons, ih, taken, taken, List.map_cons, List.sum_cons]
    omega

theorem sum_rows_ge {rows : List Int} (h : ∀ row ∈ rows, 4 ≤ row) : 4 * (rows.length : Int) ≤ rows.sum := by
  induction rows with
  | nil => exact Int.le_refl 0
  | cons row rows ih =>
    have hrow := h row List.mem_cons_self
    have hrest := ih fun row hmem => h row (List.mem_cons_of_mem _ hmem)
    rw [List.length_cons, List.sum_cons]
    omega

/-! ### The loops of the layout -/

/-- The array holds the heights of the messages. -/
structure Holds (heights rows : List Int) : Prop where
  get : ∀ i < rows.length, heights[i]? = rows[i]?
  nonneg : ∀ row ∈ rows, 0 ≤ row

namespace Holds

variable (h : Holds heights rows)
include h

theorem heightAt_eq {i : ℕ} (hi : i < rows.length) : heightAt heights i = some (rows.getD i 0) := by
  rw [heightAt, if_pos (Int.natCast_nonneg i), Int.toNat_natCast, h.get i hi, List.getElem?_eq_getElem hi,
    List.getD_eq_getElem _ _ hi]

theorem getD_nonneg (i : ℕ) : 0 ≤ rows.getD i 0 := by
  rcases Nat.lt_or_ge i rows.length with hi | hi
  · rw [List.getD_eq_getElem _ _ hi]
    exact h.nonneg _ (List.getElem_mem hi)
  · rw [List.getD_eq_default _ _ hi]

theorem sumHeights_eq (ids : List ℕ) (hids : ∀ i ∈ ids, i < rows.length) :
    sumHeights heights ids = some (ids.map fun i => rows.getD i 0).sum := by
  have hall : ∀ ids : List ℕ, (∀ i ∈ ids, i < rows.length) → ∀ sum : Int,
      ids.foldlM (fun sum (i : ℕ) => (heightAt heights i).map (sum + ·)) sum =
        some (sum + (ids.map fun i => rows.getD i 0).sum) := by
    intro ids
    induction ids with
    | nil =>
      intro _ sum
      exact congrArg some (Int.add_zero sum).symm
    | cons i ids ih =>
      intro hids sum
      rw [List.foldlM_cons, h.heightAt_eq (hids i List.mem_cons_self)]
      refine (ih (fun j hj => hids j (List.mem_cons_of_mem i hj)) _).trans ?_
      rw [List.map_cons, List.sum_cons, Int.add_assoc]
  exact (hall ids hids 0).trans (by rw [Int.zero_add])

theorem lastDisplayed_returns (width : Int) (ids : List ℕ) (hids : ∀ i ∈ ids, i < rows.length) (cy : Int) :
    ∃ r, lastDisplayed heights width ids cy = some r ∧ ∀ i, r.2 = some i → i ∈ ids :=
  Loop.scan_returns (g := fun cy i => cy + rows.getD i 0 + 1)
    (fun i hi cy => by rw [h.heightAt_eq (hids i hi)]; rfl) cy

/-- Going down, the panel is full in some messages exactly when it is behind them. -/
theorem lastDisplayed_spec {width : Int} (ids : List ℕ) (hids : ∀ i ∈ ids, i < rows.length) {cy : Int}
    (hcy : cy ≤ width) :
    if cy + taken rows ids > width then ∃ cy', ∃ i ∈ ids, lastDisplayed heights width ids cy = some (cy', some i)
    else lastDisplayed heights width ids cy = some (cy + taken rows ids, none) := by
  have hscan := Loop.scan_spec (f := fun cy (i : ℕ) => (heightAt heights i).map fun h => cy + h + spacesBetweenMsgs)
    (q := fun cy => decide (cy > width)) (g := fun cy i => cy + rows.getD i 0 + 1) (L := ids)
    (s := cy)
    (fun cy i hstop => by
      have := h.getD_nonneg i
      rw [decide_eq_true_iff] at hstop ⊢
      omega)
    (fun i hi cy => by rw [h.heightAt_eq (hids i hi)]; rfl) (decide_eq_false (by omega))
  rw [foldl_add_rows] at hscan
  simpa only [decide_eq_true_eq, lastDisplayed] using hscan

private theorem persists (y : Int) (i : ℕ) (hy : decide (y ≤ 0) = true) :
    decide (y - rows.getD i 0 - 1 ≤ 0) = true := by
  have := h.getD_nonneg i
  rw [decide_eq_true_iff] at hy ⊢
  omega

theorem firstDisplayed_returns (ids : List ℕ) (hids : ∀ i ∈ ids, i < rows.length) (y : Int) :
    ∃ r, firstDisplayed heights ids y = some r ∧ ∀ i, r.2 = some i → i ∈ ids :=
  Loop.scan_returns (g := fun y i => y - rows.getD i 0 - 1)
    (fun i hi y => by rw [h.heightAt_eq (hids i hi)]; rfl) y

/-- Going up, the top is reached in some messages exactly when it is before them. -/
theorem firstDisplayed_spec (ids : List ℕ) (hids : ∀ i ∈ ids, i < rows.length) {y : Int} (hy : 0 < y) :
    if y - taken rows ids ≤ 0 then ∃ y', ∃ i ∈ ids, firstDisplayed heights ids y = some (y', some i)
    else firstDisplayed heights ids y = some (y - taken rows ids, none) := by
  have hscan := Loop.scan_spec (f := fun y (i : ℕ) => (heightAt heights i).map fun h => y - h - spacesBetweenMsgs)
    (q := fun y => decide (y ≤ 0)) (g := fun y i => y - rows.getD i 0 - 1) (L := ids) (s := y)
    h.persists (fun i hi y => by rw [h.heightAt_eq (hids i hi)]; rfl) (decide_eq_false (by omega))
  rw [foldl_sub_rows] at hscan
  simpa only [decide_eq_true_eq, firstDisplayed] using hscan

theorem firstDisplayed_stops (hids : ∀ i ∈ ids, i < rows.length) (hne : ids ≠ []) {y : Int}
    (hy : y - taken rows ids ≤ 0) : ∃ y', ∃ i ∈ ids, firstDisplayed heights ids y = some (y', some i) :=
  Loop.scan_stops (g := fun y i => y - rows.getD i 0 - 1) h.persists
    (fun i hi y => by rw [h.heightAt_eq (hids i hi)]; rfl) hne
    (by rw [foldl_sub_rows]; exact decide_eq_true hy)

end Holds

/-! ### The window -/

/-- The messages from the first to the last one are received ones, and the focused one is among them. -/
structure MsgWindow.Shows (w : MsgWindow) (k nb : ℕ) : Prop where
  first_nonneg : 0 ≤ w.idFirstMsgDisp
  first_le : w.idFirstMsgDisp ≤ k
  le_last : (k : Int) ≤ w.idLastMsgDisp
  last_lt : w.idLastMsgDisp < nb

/-- When the messages down to the focused one are less than half of the panel, those above it leave a row of its width;
when those from the focused one on are not less than half of it either, those above reach the top. -/
def PanelFits (s : Screen) (rows : List Int) (k : ℕ) : Prop :=
  if (rows.take k).sum + rows.getD k 0 < s.panelHeight / 2 then (rows.take k).sum + k ≤ s.panelWidth
  else (rows.drop (k + 1)).sum + rows.getD k 0 < s.panelHeight / 2 ∨
    s.panelHeight / 2 - rows.getD k 0 / 2 ≤ (rows.take k).sum + k

instance (s : Screen) (rows : List Int) (k : ℕ) : Decidable (PanelFits s rows k) :=
  inferInstanceAs (Decidable (if (rows.take k).sum + rows.getD k 0 < s.panelHeight / 2 then
    (rows.take k).sum + k ≤ s.panelWidth
    else (rows.drop (k + 1)).sum + rows.getD k 0 < s.panelHeight / 2 ∨
      s.panelHeight / 2 - rows.getD k 0 / 2 ≤ (rows.take k).sum + k))

theorem idOr_bounds {id : Option ℕ} (lo hi : ℕ) (other : Int) (h : ∀ i, id = some i → lo ≤ i ∧ i < hi)
    (hother : lo ≤ other ∧ other < hi) : lo ≤ idOr id other ∧ idOr id other < hi := by
  cases id with
  | none => exact hother
  | some i => exact ⟨Int.ofNat_le.2 (h i rfl).1, Int.ofNat_lt.2 (h i rfl).2⟩

private theorem range_split {n : ℕ} (hk : k ≤ n) : List.range n = List.range k ++ List.range' k (n - k) := by
  have happend := List.range'_append_1 (s := 0) (m := k) (n := n - k)
  rw [Nat.zero_add, Nat.add_sub_cancel' hk] at happend
  rw [List.range_eq_range', List.range_eq_range', happend]

/-- The focused message is near the top: the loop goes down from the first message. -/
private theorem last_near_top (h : Holds heights rows) (hk : k < rows.length) {width : Int} (hwidth : 0 ≤ width) :
    ∃ r, lastDisplayed heights width (List.range rows.length) 0 = some r ∧
      idOr r.2 (rows.length - 1) < rows.length ∧
      ((k : Int) ≤ idOr r.2 (rows.length - 1) ↔ (rows.take k).sum + k ≤ width) := by
  have hsplit := range_split hk.le
  have habove := h.lastDisplayed_spec (List.range k)
    (fun i hi => (List.mem_range.1 hi).trans hk) hwidth
  rw [Int.zero_add, taken_range hk.le] at habove
  split at habove
  · rename_i hfull
    obtain ⟨cy, i, hi, hscan⟩ := habove
    have hi : i < k := List.mem_range.1 hi
    refine ⟨(cy, some i), ?_, ?_, ?_⟩
    · rw [lastDisplayed] at hscan ⊢
      rw [hsplit, Loop.scan_append, hscan]
      rfl
    · show (i : Int) < _
      omega
    · show (k : Int) ≤ (i : Int) ↔ _
      omega
  · rename_i hroom
    obtain ⟨r, hr, hmem⟩ := h.lastDisplayed_returns width (List.range' k (rows.length - k))
      (fun i hi => by rw [List.mem_range'_1] at hi; omega) ((rows.take k).sum + k)
    have hbounds := idOr_bounds k rows.length (rows.length - 1)
      (fun i hi => by
        have := List.mem_range'_1.1 (hmem i hi)
        omega) (by omega)
    refine ⟨r, ?_, hbounds.2, iff_of_true hbounds.1 (Int.not_lt.1 hroom)⟩
    rw [lastDisplayed] at habove hr ⊢
    rw [hsplit, Loop.scan_append, habove]
    exact hr

/-- The focused message is near the bottom: the loop goes up from the last message. -/
private theorem first_near_bottom (h : Holds heights rows) (hrows : ∀ row ∈ rows, 4 ≤ row ∧ row ≤ 18)
    (hk : k < rows.length) {height : Int} (hheight : 0 < height)
    (hnear : (rows.drop (k + 1)).sum + rows.getD k 0 < height / 2) :
    ∃ r, firstDisplayed heights (List.range rows.length).reverse height = some r ∧
      0 ≤ idOr r.2 0 ∧ idOr r.2 0 ≤ k := by
  have hsplit := range_split (show k + 1 ≤ rows.length from hk)
  have hbelow := h.firstDisplayed_spec (List.range' (k + 1) (rows.length - (k + 1))).reverse
    (fun i hi => by
      rw [List.mem_reverse, List.mem_range'_1] at hi
      omega) hheight
  rw [taken_reverse, taken_range'] at hbelow
  -- with their gaps they are less than five quarters of the rows of the messages below
  have hsum := sum_rows_ge fun row hrow => (hrows row (List.mem_of_mem_drop (i := k + 1) hrow)).1
  rw [List.length_drop] at hsum
  have hown := h.getD_nonneg k
  rw [if_neg (by omega)] at hbelow
  obtain ⟨r, hr, hmem⟩ := h.firstDisplayed_returns (List.range (k + 1)).reverse
    (fun i hi => by
      rw [List.mem_reverse, List.mem_range] at hi
      omega) (height - ((rows.drop (k + 1)).sum + (rows.length - (k + 1) : ℕ)))
  have hbounds := idOr_bounds 0 (k + 1) 0
    (fun i hi => ⟨Nat.zero_le i, by simpa using hmem i hi⟩) (by omega)
  refine ⟨r, ?_, by omega, by omega⟩
  rw [firstDisplayed] at hbelow hr ⊢
  rw [hsplit, List.reverse_append, Loop.scan_append, hbelow]
  exact hr

/-- The focused message is in the middle: the loop goes up from it. -/
private theorem first_in_middle (h : Holds heights rows) (hk : k < rows.length) {y : Int} (hy : 0 < y) :
    ∃ r, firstDisplayed heights (List.range k).reverse y = some r ∧ idOr r.2 (-1) ≤ k ∧
      (0 ≤ idOr r.2 (-1) ↔ y ≤ (rows.take k).sum + k) := by
  have habove := h.firstDisplayed_spec (List.range k).reverse
    (fun i hi => (List.mem_range.1 (List.mem_reverse.1 hi)).trans hk) hy
  rw [taken_reverse, taken_range hk.le] at habove
  split at habove
  · rename_i hreach
    obtain ⟨y', i, hi, hscan⟩ := habove
    have hi : i < k := List.mem_range.1 (List.mem_reverse.1 hi)
    exact ⟨_, hscan, show (i : Int) ≤ k by omega, iff_of_true (Int.natCast_nonneg i) (by omega)⟩
  · rename_i hroom
    exact ⟨_, habove, show (-1 : Int) ≤ k by omega, iff_of_false (show ¬ (0 : Int) ≤ -1 by decide) (by omega)⟩

theorem sizeT_natCast_succ {k : ℕ} (hk : k + 1 < 2 ^ 64) : sizeT ((k : Int) + 1) = k + 1 := by
  rw [sizeT]
  omega

/-- The layout without the reading of the heights. -/
theorem msgWindow_eq (h : Holds heights rows) (hk : k < rows.length) (hint : k < 2 ^ 31) :
    msgWindow s heights rows.length k =
      if (rows.take k).sum + rows.getD k 0 < s.panelHeight.tdiv 2 then
        (lastDisplayed heights s.panelWidth (List.range rows.length) 0).map fun r =>
          ⟨0, 0, idOr r.2 (rows.length - 1)⟩
      else if (rows.drop (k + 1)).sum + rows.getD k 0 < s.panelHeight.tdiv 2 then
        (firstDisplayed heights (List.range rows.length).reverse s.panelHeight).map fun r =>
          ⟨r.1, idOr r.2 0, rows.length - 1⟩
      else
        (firstDisplayed heights (List.range k).reverse
          (s.panelHeight.tdiv 2 - (rows.getD k 0).tdiv 2)).bind fun r =>
          (lastDisplayed heights s.panelWidth (List.range' (k + 1) (rows.length - (k + 1)))
            (s.panelHeight.tdiv 2 - (rows.getD k 0).tdiv 2 + rows.getD k 0)).map fun r' =>
            ⟨r.1, idOr r.2 (-1), idOr r'.2 (rows.length - 1)⟩ := by
  have hpre := h.sumHeights_eq (List.range k) fun i hi => (List.mem_range.1 hi).trans hk
  have hpost := h.sumHeights_eq (List.range' (k + 1) (rows.length - (k + 1))) fun i hi => by
    rw [List.mem_range'_1] at hi
    omega
  rw [map_rows_range hk.le] at hpre
  rw [map_rows_range'] at hpost
  rw [msgWindow, h.heightAt_eq hk, Int.toNat_natCast, sizeT_natCast_succ (by omega)]
  simp only [Option.bind_eq_bind, Option.bind_some, hpre, hpost]
  congr 1
  · cases lastDisplayed heights s.panelWidth (List.range rows.length) 0 <;> rfl
  congr 1
  · cases firstDisplayed heights (List.range rows.length).reverse s.panelHeight <;> rfl
  congr 1
  funext r
  cases lastDisplayed heights s.panelWidth (List.range' (k + 1) (rows.length - (k + 1)))
    (s.panelHeight.tdiv 2 - (rows.getD k 0).tdiv 2 + rows.getD k 0) <;> rfl

/-- The layout computes a window, and it shows the focused message exactly when the messages fit. -/
theorem msgWindow_spec (h : Holds heights rows) (hrows : ∀ row ∈ rows, 4 ≤ row ∧ row ≤ 18) (hk : k < rows.length)
    (hint : k < 2 ^ 31) (hwidth : 0 ≤ s.panelWidth) (hheight : 46 ≤ s.panelHeight) :
    ∃ w, msgWindow s heights rows.length k = some w ∧ (w.Shows k rows.length ↔ PanelFits s rows k) := by
  have hhalf : s.panelHeight.tdiv 2 = s.panelHeight / 2 := Int.tdiv_eq_ediv_of_nonneg (by omega)
  have hown := h.getD_nonneg k
  have hownle : rows.getD k 0 ≤ 18 := by
    rw [List.getD_eq_getElem _ _ hk]
    exact (hrows _ (List.getElem_mem hk)).2
  have hownhalf : (rows.getD k 0).tdiv 2 = rows.getD k 0 / 2 := Int.tdiv_eq_ediv_of_nonneg hown
  rw [msgWindow_eq h hk hint, hhalf, hownhalf, PanelFits]
  by_cases htop : (rows.take k).sum + rows.getD k 0 < s.panelHeight / 2
  · rw [if_pos htop, if_pos htop]
    obtain ⟨r, hr, hlt, hle⟩ := last_near_top h hk hwidth
    refine ⟨⟨0, 0, idOr r.2 (rows.length - 1)⟩, by rw [hr]; rfl, ?_⟩
    exact ⟨fun hshows => hle.1 hshows.le_last, fun hfits => ⟨Int.le_refl 0, Int.natCast_nonneg k, hle.2 hfits, hlt⟩⟩
  · rw [if_neg htop, if_neg htop]
    by_cases hbottom : (rows.drop (k + 1)).sum + rows.getD k 0 < s.panelHeight / 2
    · rw [if_pos hbottom]
      obtain ⟨r, hr, hnonneg, hle⟩ := first_near_bottom h hrows hk (by omega) hbottom
      refine ⟨⟨r.1, idOr r.2 0, rows.length - 1⟩, by rw [hr]; rfl, ?_⟩
      exact iff_of_true ⟨hnonneg, hle, show (k : Int) ≤ rows.length - 1 by omega,
        show (rows.length : Int) - 1 < rows.length by omega⟩ (Or.inl hbottom)
    · rw [if_neg hbottom]
      obtain ⟨r, hr, hle, hnonneg⟩ := first_in_middle h hk (y := s.panelHeight / 2 - rows.getD k 0 / 2) (by omega)
      have hbehind : ∀ i ∈ List.range' (k + 1) (rows.length - (k + 1)), k + 1 ≤ i ∧ i < rows.length := by
        intro i hi
        rw [List.mem_range'_1] at hi
        omega
      obtain ⟨r', hr', hmem⟩ := h.lastDisplayed_returns s.panelWidth _ (fun i hi => (hbehind i hi).2)
        (s.panelHeight / 2 - rows.getD k 0 / 2 + rows.getD k 0)
      have hbounds := idOr_bounds k rows.length (rows.length - 1)
        (fun i hi => by
          have := hbehind i (hmem i hi)
          omega) (by omega)
      refine ⟨⟨r.1, idOr r.2 (-1), idOr r'.2 (rows.length - 1)⟩, ?_, ?_⟩
      · rw [hr, Option.bind_some, hr']
        rfl
      · rw [or_iff_right hbottom]
        exact ⟨fun hshows => hnonneg.1 hshows.first_nonneg,
          fun hfits => ⟨hnonneg.2 hfits, hle, hbounds.1, hbounds.2⟩⟩

/-! ### The printed messages -/

/-- Every message that is printed is a received one, and the focused one is printed. -/
structure PanelDisplay.Shows (r : PanelDisplay) (c : AnsiState) (k : ℕ) : Prop where
  window : r.window.Shows k c.nbMsgsDefaultChannel
  exist : ∀ m ∈ r.printed, m.id < c.nbMsgsDefaultChannel ∧ c.msgsDefaultChannel[m.id]? = some m.msg
  focused : ∃ m ∈ r.printed, m.id = k ∧ m.hover = true

/-- The messages of a window in the array are printed, and the one under the cursor with a highlight. -/
theorem printMessages_spec (h : Holds heights rows) {c : AnsiState} (hslots : rows.length ≤ c.msgsDefaultChannel.length)
    {w : MsgWindow} (hfirst : 0 ≤ w.idFirstMsgDisp) (hlast : w.idLastMsgDisp < rows.length) :
    ∃ printed, printMessages s ⟨c, heights⟩ w = some printed ∧
      (∀ i : ℕ, w.idFirstMsgDisp ≤ i → (i : Int) ≤ w.idLastMsgDisp → ∃ m ∈ printed, m.id = i) ∧
      ∀ m ∈ printed, m.id < rows.length ∧ c.msgsDefaultChannel[m.id]? = some m.msg ∧
        m.hover = decide ((m.id : Int) = c.dispMsgsCursor) := by
  obtain ⟨first, hfirst⟩ := Int.eq_ofNat_of_zero_le hfirst
  obtain ⟨⟨cy, printed⟩, hrun, hids, hexist⟩ := Loop.foldlM_range
    (s := ((panelYStart + w.y₀, []) : Int × List PrintedMessage))
    (n := (w.idLastMsgDisp - w.idFirstMsgDisp + 1).toNat)
    (f := fun t (j : ℕ) => do
      let height ← heightAt heights (w.idFirstMsgDisp + j)
      let msg ← c.msgsDefaultChannel[(w.idFirstMsgDisp + j).toNat]?
      return (t.1 + height + spacesBetweenMsgs, t.2 ++ [(⟨(w.idFirstMsgDisp + j).toNat, msg, panelXStart, t.1,
        s.panelXEnd, panelYStart, s.panelYEnd, w.idFirstMsgDisp + j = c.dispMsgsCursor⟩ : PrintedMessage)]))
    (fun j t => (∀ i < j, ∃ m ∈ t.2, m.id = first + i) ∧
      ∀ m ∈ t.2, m.id < rows.length ∧ c.msgsDefaultChannel[m.id]? = some m.msg ∧
        m.hover = decide ((m.id : Int) = c.dispMsgsCursor))
    ⟨fun i hi => absurd hi (Nat.not_lt_zero i), fun m hm => absurd hm List.not_mem_nil⟩
    (by
      rintro j hj ⟨cy, printed⟩ ⟨hids, hexist⟩
      have hindex : w.idFirstMsgDisp + j = ((first + j : ℕ) : Int) := by omega
      have hrow : first + j < rows.length := by omega
      have hslot : first + j < c.msgsDefaultChannel.length := by omega
      rw [hindex, h.heightAt_eq hrow, Int.toNat_natCast, List.getElem?_eq_getElem hslot]
      refine ⟨_, rfl, fun i hi => ?_, fun m hm => ?_⟩
      · rcases Nat.eq_or_lt_of_le (Nat.lt_succ_iff.1 hi) with rfl | hlt'
        · exact ⟨_, List.mem_append_right _ (List.mem_singleton_self _), rfl⟩
        · obtain ⟨m, hm, hid⟩ := hids i hlt'
          exact ⟨m, List.mem_append_left _ hm, hid⟩
      · rcases List.mem_append.1 hm with hm | hm
        · exact hexist m hm
        · rw [List.mem_singleton] at hm
          subst hm
          exact ⟨hrow, List.getElem?_eq_getElem hslot, rfl⟩)
  refine ⟨printed, ?_, fun i hle hi => ?_, hexist⟩
  · rw [printMessages, List.foldlM_map]
    exact congrArg (Option.bind · _) hrun
  · obtain ⟨m, hm, hid⟩ := hids (i - first) (by omega)
    exact ⟨m, hm, by omega⟩

/-- For every terminal that is large enough, all received messages and every focused one: the panel shows received
messages with the focused one among them exactly when they fit. -/
theorem displayLeftPanel_shows_iff (h : PanelReady s p k) {fuel : ℕ} (hfuel : MAX_MSG_LENGTH ≤ fuel) :
    (∃ r, displayLeftPanel fuel s p = some r ∧ r.Shows p.state k) ↔ PanelFits s (panelRows s p.state) k := by
  have hk := h.valid
  obtain ⟨heights, hrun, hrows⟩ := h.calcMsgsTotHeight_eq hfuel
  have hholds : Holds heights (panelRows s p.state) :=
    ⟨fun i hi => hrows i (by rwa [h.length_rows] at hi), fun row hrow => by
      have := h.rows_bounds hrow
      omega⟩
  have hwidth := h.panelWidth_ge
  obtain ⟨w, hw, hiff⟩ := msgWindow_spec hholds (fun row hrow => h.rows_bounds hrow) (by rwa [h.length_rows]) h.int
    (by omega) h.panelHeight_ge
  rw [h.length_rows] at hw hiff
  have hdisplay : displayLeftPanel fuel s p =
      (printMessages s ⟨p.state, heights⟩ w).map fun printed => ⟨⟨p.state, heights⟩, w, printed⟩ := by
    rw [displayLeftPanel, if_pos h.dest, if_neg (by omega), hrun]
    simp only [Option.bind_eq_bind, Option.bind_some, h.cursor, hw]
    cases printMessages s ⟨p.state, heights⟩ w <;> rfl
  rw [hdisplay, ← hiff]
  constructor
  · rintro ⟨r, hr, hshows⟩
    obtain ⟨printed, -, rfl⟩ := Option.map_eq_some_iff.1 hr
    exact hshows.window
  · intro hshows
    have hlast := hshows.last_lt
    rw [← h.length_rows] at hlast
    obtain ⟨printed, hprinted, hids, hexist⟩ := printMessages_spec (s := s) hholds (c := p.state)
      (by rw [h.length_rows]; exact h.slots) hshows.first_nonneg hlast
    refine ⟨_, by rw [hprinted]; rfl, hshows, fun m hm => ?_, ?_⟩
    · obtain ⟨hlt, hget, -⟩ := hexist m hm
      exact ⟨by rwa [h.length_rows] at hlt, hget⟩
    · obtain ⟨m, hm, hid⟩ := hids k hshows.first_le hshows.le_last
      obtain ⟨-, -, hhover⟩ := hexist m hm
      rw [hid, h.cursor, decide_eq_true rfl] at hhover
      exact ⟨m, hm, hid, hhover⟩

/-- A client that has received messages of the given lengths, with the cursor on the message `k`. -/
def receivedPanel (lengths : List UInt32) (k : ℕ) : PanelState where
  state :=
    { initCstate fun _ => none with
      msgsDefaultChannel := lengths.map fun len => { Message.zero with msgLength := len }
      nbMsgsDefaultChannel := lengths.length
      dispMsgsCursor := k }
  heightsMsgsDefaultChannel := lengths.map fun _ => 0

def smallestScreen : Screen := ⟨MIN_TERMINAL_WIDTH, MIN_TERMINAL_HEIGHT, LOGO_MAIN_TX⟩

private theorem receivedPanel_ready {lengths : List UInt32}
    (hlengths : (lengths.all fun len => decide (1 ≤ len.toNat ∧ len.toNat < MAX_MSG_LENGTH)) = true)
    (hk : k < lengths.length) (hint : k < 2 ^ 31) : PanelReady smallestScreen (receivedPanel lengths k) k where
  width := Int.le_refl _
  height := Int.le_refl _
  logo := rfl
  dest := rfl
  slots := by rw [receivedPanel, List.length_map]
  heights := by rw [receivedPanel, List.length_map, List.length_map]
  lengths := by
    intro m hm
    obtain ⟨len, hlen, rfl⟩ := List.mem_map.1 (List.mem_of_mem_take hm)
    exact of_decide_eq_true (List.all_eq_true.1 hlengths len hlen)
  cursor := rfl
  valid := hk
  int := hint

/-- Seven messages in the smallest terminal, with the cursor on the fourth. -/
theorem displayLeftPanel_shows_fourth :
    ∃ r, displayLeftPanel MAX_MSG_LENGTH smallestScreen (receivedPanel [36, 120, 511, 80, 36, 200, 36] 3) = some r ∧
      r.Shows (receivedPanel [36, 120, 511, 80, 36, 200, 36] 3).state 3 :=
  (displayLeftPanel_shows_iff (receivedPanel_ready rfl (by decide) (by decide))
    (Nat.le_refl _)).2 (by decide)

/-- In the smallest terminal the first of three messages leaves room at the top, and a message with the index `-1`
would be printed. -/
theorem middle_message_leaves_array :
    PanelReady smallestScreen (receivedPanel [36, 511, 36] 1) 1 ∧
      panelRows smallestScreen (receivedPanel [36, 511, 36] 1).state = [5, 18, 5] ∧
      msgWindow smallestScreen [5, 18, 5] 3 1 = some ⟨8, -1, 2⟩ ∧
      ¬ ∃ r, displayLeftPanel MAX_MSG_LENGTH smallestScreen (receivedPanel [36, 511, 36] 1) = some r ∧
        r.Shows (receivedPanel [36, 511, 36] 1).state 1 := by
  have hnone : (displayLeftPanel MAX_MSG_LENGTH smallestScreen (receivedPanel [36, 511, 36] 1)).isNone = true := by
    decide +kernel
  refine ⟨receivedPanel_ready rfl (by decide) (by decide), rfl, by decide +kernel, ?_⟩
  rintro ⟨r, hr, -⟩
  rw [hr] at hnone
  cases hnone

end NyanChat.Ansi
