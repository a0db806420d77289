import FirFilter.Hardware.Frames
/-!
# FirFilter.Hardware.RowLength

Which images the component can filter.

The width register says how many results make a row, but the rows of a window are always
`MAX_IMAGE_WIDTH` beats apart. Software can choose the order in which it sends the pixels
of a padded image, and may send some of them twice. Here is when any such order makes the
windows of the component those of the image: when the padded rows fill the taps, or when
the whole of the image rows fits into one tap, so that every tap can have a copy of its own.
For every size in between two windows want different pixels from the same beat.
-/

namespace FirFilter.Hardware

open Clocked Ledger

variable {g : Generics} {P : Parts g}

/-- An order of sending the pixels of a padded image, row `y` and column `x`. -/
abbrev SendOrder (g : Generics) := (ℕ → ℕ → BitVec g.pixelWidth) → ℕ → BitVec g.pixelWidth

/-- Sent in this order, every image is filtered: at transfer `r * w + c` the register bank
holds the window of the image that begins at row `r` and column `c`. -/
def Filters (P : Parts g) (f : FrameSize g) (order : SendOrder g) : Prop :=
  ∀ (image : ℕ → ℕ → BitVec g.pixelWidth) (p : Watched P) (inp : ℕ → Pins g) (n : ℕ),
    FrameStart p → (∀ m ≤ n, Configured f.width f.height (observe p inp m).1) →
    (∀ m < n, Feeds (order image) (observe p inp m) (inp m)) →
    (observe p inp n).1.transfers (inp n) → ∀ r c, c < f.width →
      (observe p inp n).2.sent.length = r * f.width + c → ∀ a b : Fin g.kernelSize,
        (observe p inp n).1.process.window a b = image (r + a) (c + b)

/-! ### Beats and windows -/

/-- Whatever is sent, some run gets to every transfer of the frame. -/
theorem exists_transfer (P : Parts g) (f : FrameSize g) (v : ℕ → BitVec g.pixelWidth) {t : ℕ}
    (ht : t < f.height * f.width) : ∃ (p : Watched P) (inp : ℕ → Pins g) (n : ℕ),
      FrameStart p ∧ (∀ m, Configured f.width f.height (observe p inp m).1) ∧
      (∀ m, Feeds v (observe p inp m) (inp m)) ∧ (observe p inp n).1.transfers (inp n) ∧
      (observe p inp n).2.sent.length = t := by
  let s := Component.programmed P f.width f.height
  obtain ⟨inp, hinp⟩ := exists_feed (s, {}) v
  have hquiet : ∀ n, (inp n).Quiet := fun n => by rw [hinp]; exact eager_quiet g
  have hconf : ∀ n, Configured f.width f.height (run Component.step s inp n) := fun n => by
    obtain ⟨hw, hh⟩ := Component.sizes_run_of_quiet s hquiet n
    have hsize := configured_programmed (P := P) f.width_le f.height_le
    exact ⟨hw.trans hsize.1, hh.trans hsize.2⟩
  have hpins : ∀ n, (inp n).asiInValid ∧ (inp n).asoOutReady := fun n => by
    rw [hinp]
    exact ⟨rfl, rfl⟩
  obtain ⟨N, hidle, hdone⟩ := frames_complete (f := f) (s := s) rfl hconf
    (fun n => (Component.controlBit_run_of_quiet s hquiet n).trans
      (Component.programmed_controlBit P f.width f.height))
    (fun n => ⟨n, le_rfl, (hpins n).1⟩) (fun n => ⟨n, le_rfl, (hpins n).2⟩) 1
  -- by the end of the first frame every transfer of it has been made
  have hsent : t < resultsSent s inp N := by
    rw [(handshakes_of_idle rfl (fun m _ => hconf m) (by
      unfold Component.Idle; rw [hidle])).2]
    exact ht.trans_le (Nat.le_mul_of_pos_left _ hdone)
  obtain ⟨n, -, hcount, htr⟩ := exists_count_eq hsent
  have hbusy : ¬ (run Component.step s inp n).Idle := fun h => by
    rw [(no_handshake_of_idle h _).2] at htr
    cases htr
  have hledger := (handshake_ledger (s := s) rfl fun m (_ : m ≤ n) => hconf m).2
  rw [underWay_of_busy (by rwa [observe, run_watch_fst])] at hledger
  have hfirst : framesDone s inp n = 0 := by
    by_contra hne
    have := Nat.le_mul_of_pos_left (f.height * f.width) (Nat.pos_of_ne_zero hne)
    have : resultsSent s inp n = t := hcount
    omega
  refine ⟨(s, {}), inp, n, ⟨rfl, rfl⟩, fun m => ?_, fun m _ => ?_, ?_, ?_⟩
  · rw [observe, run_watch_fst]
    exact hconf m
  · rw [hinp]
  · rwa [observe, run_watch_fst]
  · rw [hfirst, Nat.zero_mul, Nat.zero_add] at hledger
    exact hledger.symm.trans hcount

/-- An order filters every image exactly when the beats of every window are its pixels. -/
theorem filters_iff (hT : P.altshiftTaps.DelayLine g.maxImageWidth)
    (hB : P.registerBank.KeepsLast) (f : FrameSize g) (order : SendOrder g) :
    Filters P f order ↔ ∀ image, ∀ r c, r < f.height → c < f.width → ∀ a b : Fin g.kernelSize,
      order image (r * f.pitch + c + a.val * g.maxImageWidth + b.val) = image (r + a) (c + b) := by
  constructor
  · intro h image r c hr hc a b
    obtain ⟨p, inp, n, hp, hconf, hfeed, htr, hsent⟩ :=
      exists_transfer P f (order image) (rowMajor_lt hr hc)
    rw [← h image p inp n hp (fun m _ => hconf m) (fun m _ => hfeed m) htr r c hc hsent a b]
    obtain ⟨hwindow, -⟩ := transfers_window hT hB f (order image) hp
      (fun m (_ : m ≤ n) => hconf m) fun m _ => hfeed m
    exact ((hwindow htr).2 r c hc hsent a b).symm
  · intro h image p inp n hp hconf hfeed htr r c hc hsent a b
    obtain ⟨hwindow, -⟩ := transfers_window hT hB f (order image) hp hconf hfeed
    obtain ⟨hlt, hwin⟩ := hwindow htr
    obtain ⟨r', c', hr', hc', hrc⟩ := exists_rowMajor hlt
    obtain ⟨rfl, rfl⟩ := rowMajor_unique hc hc' (hsent.symm.trans hrc)
    rw [hwin r c hc hsent a b, h image r c hr' hc a b]

/-! ### The row lengths -/

section Order

variable (hT : P.altshiftTaps.DelayLine g.maxImageWidth) (hB : P.registerBank.KeepsLast)
  (f : FrameSize g)

/-- A window stays inside the padded row. -/
theorem FrameSize.column_lt (f : FrameSize g) {c : ℕ} (hc : c < f.width) (b : Fin g.kernelSize) :
    c + b.val < f.pitch := by
  have := f.pitch_add_one
  omega

include hT hB

/-- Rows that fill the taps are sent once, one after the other. -/
theorem filters_of_pitch (hP : f.pitch = g.maxImageWidth) :
    Filters P f fun image n => image (n / g.maxImageWidth) (n % g.maxImageWidth) := by
  refine (filters_iff hT hB f _).mpr fun image r c _ hc a b => ?_
  have hlt := f.column_lt hc b
  have hindex : r * f.pitch + c + a.val * g.maxImageWidth + b.val =
      (r + a.val) * g.maxImageWidth + (c + b.val) := by
    rw [hP, Nat.add_mul]
    omega
  rw [hP] at hlt
  simp only [hindex, rowMajor_div hlt, rowMajor_mod hlt]

/-- Rows that all fit into one tap are sent for every tap anew, each time one row further
down. -/
theorem filters_of_height (hP : f.height * f.pitch ≤ g.maxImageWidth) :
    Filters P f fun image n =>
      image (n / g.maxImageWidth + n % g.maxImageWidth / f.pitch)
        (n % g.maxImageWidth % f.pitch) := by
  refine (filters_iff hT hB f _).mpr fun image r c hr hc a b => ?_
  have hlt := f.column_lt hc b
  have hrow : r * f.pitch + (c + b.val) < g.maxImageWidth := (rowMajor_lt hr hlt).trans_le hP
  have hindex : r * f.pitch + c + a.val * g.maxImageWidth + b.val =
      a.val * g.maxImageWidth + (r * f.pitch + (c + b.val)) := by omega
  simp only [hindex, rowMajor_div hrow, rowMajor_mod hrow, rowMajor_div hlt, rowMajor_mod hlt,
    Nat.add_comm a.val]

/-- In between, the beat under the second tap of the first window belongs to another pixel
as well. -/
theorem pitch_of_filters (hK : 2 ≤ g.kernelSize) (hpixel : 1 ≤ g.pixelWidth)
    {order : SendOrder g} (h : Filters P f order) (hlong : g.maxImageWidth < f.height * f.pitch) :
    f.pitch = g.maxImageWidth := by
  have hpos : 0 < f.pitch := Nat.pos_of_ne_zero fun h0 => by
    rw [h0, Nat.mul_zero] at hlong
    exact Nat.not_lt_zero _ hlong
  have hsum := Nat.div_add_mod' g.maxImageWidth f.pitch
  have hmod := Nat.mod_lt g.maxImageWidth hpos
  have hrow : g.maxImageWidth / f.pitch < f.height := Nat.div_lt_of_lt_mul (by
    rwa [Nat.mul_comm])
  have hpitch := f.pitch_add_one
  have hwidth := f.width_pos
  let c := min (g.maxImageWidth % f.pitch) (f.width - 1)
  have hc : c < f.width ∧ c ≤ g.maxImageWidth % f.pitch ∧
      g.maxImageWidth % f.pitch - c < g.kernelSize := by omega
  -- the pixel at row 1 and column 0, seen through the second tap and through the first
  let image : ℕ → ℕ → BitVec g.pixelWidth := fun y x => if y = 1 ∧ x = 0 then 1 else 0
  have hbeats := (filters_iff hT hB f order).mp h image
  have hsecond := hbeats 0 0 (Nat.zero_lt_of_lt hrow) hwidth ⟨1, hK⟩ ⟨0, by omega⟩
  have hfirst := hbeats _ c hrow hc.1 ⟨0, by omega⟩ ⟨g.maxImageWidth % f.pitch - c, hc.2.2⟩
  simp only [Nat.zero_mul, Nat.one_mul, Nat.add_zero, Nat.zero_add] at hsecond hfirst
  rw [show g.maxImageWidth / f.pitch * f.pitch + c + (g.maxImageWidth % f.pitch - c) =
    g.maxImageWidth by omega, Nat.add_sub_of_le hc.2.1, hsecond] at hfirst
  have hone : (1 : BitVec g.pixelWidth) ≠ 0 := fun heq => by
    have := congrArg BitVec.toNat heq
    simp at this
    omega
  have hpixel' : g.maxImageWidth / f.pitch = 1 ∧ g.maxImageWidth % f.pitch = 0 := by
    by_contra hne
    exact hone (hfirst.trans (if_neg hne))
  rw [hpixel'.1, hpixel'.2, Nat.one_mul] at hsum
  exact hsum

/-- **The row lengths that work.** For a kernel of two rows or more there is an order of
sending the pixels in which every image is filtered, under every handshake pattern, exactly
when the padded rows are as long as the taps or the image rows fit into one tap together. -/
theorem exists_order_iff (hK : 2 ≤ g.kernelSize) (hpixel : 1 ≤ g.pixelWidth) :
    (∃ order, Filters P f order) ↔
      f.pitch = g.maxImageWidth ∨ f.height * f.pitch ≤ g.maxImageWidth := by
  constructor
  · rintro ⟨order, h⟩
    rcases Nat.lt_or_ge g.maxImageWidth (f.height * f.pitch) with hlong | hshort
    · exact .inl (pitch_of_filters hT hB f hK hpixel h hlong)
    · exact .inr hshort
  · rintro (hP | hP)
    · exact ⟨_, filters_of_pitch hT hB f hP⟩
    · exact ⟨_, filters_of_height hT hB f hP⟩

end Order

/-- The shipped component cannot be used for the images of `83` columns. -/
theorem exists_order_iff_shipped : ¬ ∃ order,
    Filters (Parts.plain shipped) ⟨83, 20, by decide, by decide, by decide, by decide⟩ order := by
  rw [exists_order_iff (Parts.plain_delayLine shipped) (Parts.plain_keepsLast shipped) _ (by decide)
    (by decide)]
  decide

end FirFilter.Hardware
