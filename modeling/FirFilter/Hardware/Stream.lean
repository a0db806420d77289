import FirFilter.Hardware.Liveness
import FirFilter.Lib.RowMajor
/-!
# FirFilter.Hardware.Stream

What the component does to the pixel stream: every accepted output transfer is
made while the register bank holds the window of the input stream that belongs
to that output pixel, whatever the handshakes do and whatever the memories held
when the frame began.
-/

namespace FirFilter.Hardware

open Clocked

variable {g : Generics} {P : Parts g}

/-! ### The input stream -/

/-- The source presents the pixels of `s` in order: whenever a beat is accepted,
it is the one after those accepted so far in the frame. Between beats the data
bus may carry anything. -/
def Feeds (s : ℕ → BitVec g.pixelWidth) (p : Watched P) (x : Pins g) : Prop :=
  p.1.accepts x → x.asiInData = s p.2.accepted.length

/-- The accepted beats are an initial segment of the stream. -/
def Fed (s : ℕ → BitVec g.pixelWidth) (p : Watched P) : Prop :=
  p.2.accepted = (List.range p.2.accepted.length).map s

theorem Fed.step {f : FrameSize g} {s : ℕ → BitVec g.pixelWidth} {p : Watched P} {x : Pins g}
    (h : Fed s p) (hinv : FrameInv f p) (hs : Feeds s p x) :
    Fed s (watch Component.step FrameLog.record p x) := by
  show (p.2.record p.1 x).accepted = (List.range (p.2.record p.1 x).accepted.length).map s
  unfold FrameLog.record
  by_cases ha : p.1.accepts x
  · obtain ⟨-, hopen, -⟩ := hinv.accepts_shift ha
    simp only [ha, hopen, if_true, List.length_append, List.length_singleton,
      List.range_succ, List.map_append, List.map_singleton]
    rw [← h, hs ha]
  · simp only [ha, Bool.false_eq_true, if_false, List.append_nil, FrameLog.opened]
    split
    · rfl
    · exact h

theorem Fed.of_run {f : FrameSize g} {s : ℕ → BitVec g.pixelWidth} {p : Watched P}
    (h : FrameStart p) {inp : ℕ → Pins g} {n : ℕ}
    (hc : ∀ m ≤ n, Configured f.width f.height (observe p inp m).1)
    (hs : ∀ m < n, Feeds s (observe p inp m) (inp m)) : Fed s (observe p inp n) := by
  induction n with
  | zero =>
      obtain ⟨c, l⟩ := p
      obtain rfl : l = {} := h.2
      rfl
  | succ n ih =>
      exact (ih (fun m hm => hc m (by omega)) fun m hm => hs m (by omega)).step
        (FrameInv.of_run h fun m hm => hc m (by omega)) (hs n (by omega))

theorem Fed.getElem? {s : ℕ → BitVec g.pixelWidth} {p : Watched P} (h : Fed s p) {k : ℕ}
    (hk : k < p.2.accepted.length) : p.2.accepted[k]? = some (s k) := by
  rw [Fed] at h
  generalize p.2.accepted.length = m at h hk
  rw [h, List.getElem?_map, List.getElem?_range hk, Option.map_some]

/-! ### The window at a transfer -/

/-- `KERNEL_SIZE` rows of the delay line are one row and `KERNEL_SIZE - 1` more. -/
theorem shifterSize_eq (g : Generics) :
    g.shifterSize = (g.kernelSize - 1) * g.maxImageWidth + g.maxImageWidth := by
  have hK := g.kernelSize_pos
  rw [← Nat.add_one_mul, Nat.sub_add_cancel hK, Nat.mul_comm]
  rfl

/-- At a transfer the table gives the row and the column of the result, and the
accepted beats cover its window. -/
theorem Progress.at_transfer {f : FrameSize g} {c : Control} {n m t : ℕ}
    (h : Progress f c n m t) (hv : asoOutValid c.currentState) :
    ∃ r col, r < f.height ∧ col < f.width ∧ t = r * f.width + col ∧
      n = r * f.pitch + col + g.kernelSize * g.maxImageWidth + g.kernelSize ∧
      r * f.pitch + f.pitch + (g.kernelSize - 1) * g.maxImageWidth ≤ m := by
  have hsize := shifterSize_eq g
  have hcomm : g.kernelSize * g.maxImageWidth = g.shifterSize := Nat.mul_comm _ _
  have hpitch := f.pitch_le
  have hh := f.two_le_height
  cases h with
  | @offering c3 c4 _ _ _ h3 h4 hn hm ht =>
      exact ⟨c4, c3, by omega, h3, ht, by omega, by omega⟩
  | @draining c6 _ _ _ h6 hn hm ht =>
      have hbeats : f.beats = g.shifterSize + (f.height - 1) * f.pitch := rfl
      exact ⟨f.height - 1, c6, by omega, h6, ht, by omega, by omega⟩
  | _ => simp [asoOutValid] at hv

/-- The index of a window value, below the end of its last row. -/
theorem window_index_lt (f : FrameSize g) {r c : ℕ} (hc : c < f.width)
    (a b : Fin g.kernelSize) :
    r * f.pitch + c + a.val * g.maxImageWidth + b.val <
      r * f.pitch + f.pitch + (g.kernelSize - 1) * g.maxImageWidth := by
  have hrows : a.val * g.maxImageWidth ≤ (g.kernelSize - 1) * g.maxImageWidth :=
    Nat.mul_le_mul_right _ (by omega)
  have hpitch := f.pitch_add_one
  omega

/-- Started idle with its counters at `0` and
with any contents of the memories, and fed the pixels `s` of a frame of size `f`
under any handshake pattern, the component makes transfer number `r * w + c` while
the register bank holds the values `s[r * P + c + a * W + b]`. It makes no further
transfer before it is idle again, and then it has made all `h * w`. -/
theorem transfers_window (hT : P.altshiftTaps.DelayLine g.maxImageWidth)
    (hB : P.registerBank.KeepsLast) (f : FrameSize g) (s : ℕ → BitVec g.pixelWidth)
    {p : Watched P} (hp : FrameStart p) {inp : ℕ → Pins g} {n : ℕ}
    (hc : ∀ m ≤ n, Configured f.width f.height (observe p inp m).1)
    (hs : ∀ m < n, Feeds s (observe p inp m) (inp m)) :
    let q := observe p inp n
    (q.1.transfers (inp n) →
      q.2.sent.length < f.height * f.width ∧
      ∀ r c, c < f.width → q.2.sent.length = r * f.width + c → ∀ a b : Fin g.kernelSize,
        q.1.process.window a b = s (r * f.pitch + c + a.val * g.maxImageWidth + b.val)) ∧
    (q.1.control.currentState = .S0 → q.1.control = {} ∧
      (q.2.sent.length = 0 ∨ q.2.sent.length = f.height * f.width)) := by
  intro q
  have hinv : FrameInv f q := .of_run hp hc
  have hfed : Fed s q := .of_run hp hc hs
  refine ⟨fun htr => ?_, fun h0 => ?_⟩
  · have hv : asoOutValid q.1.control.currentState = true := by
      simpa [Component.transfers, Component.outValid] using (Bool.and_eq_true_iff.mp htr).2
    obtain ⟨r', c', hr', hc', ht, hn, hm⟩ := hinv.progress.at_transfer hv
    constructor
    · rw [ht]
      exact rowMajor_lt hr' hc'
    · intro r c hcw hrc a b
      obtain ⟨rfl, rfl⟩ := rowMajor_unique hc' hcw (ht.symm.trans hrc)
      obtain ⟨base, hbase⟩ := hinv.history
      have hwin := window_of_history hT hB base q.2.shifted (r' * f.pitch + c') hn a b
      have hlt := lt_of_lt_of_le (window_index_lt f (r := r') hc' a b) hm
      -- the window lies in the accepted part of the history, which is the stream
      obtain ⟨rest, hrest⟩ := hinv.accepted_prefix
      have hget : q.2.shifted[r' * f.pitch + c' + a.val * g.maxImageWidth + b.val]? =
          some (s (r' * f.pitch + c' + a.val * g.maxImageWidth + b.val)) := by
        rw [← hrest, List.getElem?_append_left hlt, hfed.getElem? hlt]
      rw [hget] at hwin
      unfold Process.window
      rw [hbase]
      exact (Option.some.inj hwin).symm
  · obtain ⟨hidle, ⟨-, -, ht⟩ | ⟨-, ht⟩⟩ := hinv.progress.at_idle h0
    · exact ⟨hidle, .inl ht⟩
    · exact ⟨hidle, .inr ht⟩

/-- **The component streams windows.** Started idle with its counters at `0` and with
any contents of the memories, and fed the pixels `s` of a frame of size `f`, the
component makes transfer number `r * w + c` while the register bank holds the values
`s[r * P + c + a * W + b]`, under every handshake pattern. It is idle again only with
all `h * w` transfers made, and it gets there when the handshakes keep coming. -/
theorem stream_windows (hT : P.altshiftTaps.DelayLine g.maxImageWidth)
    (hB : P.registerBank.KeepsLast) (f : FrameSize g) (s : ℕ → BitVec g.pixelWidth)
    {p : Watched P} (hp : FrameStart p) {inp : ℕ → Pins g}
    (hc : ∀ n, Configured f.width f.height (observe p inp n).1)
    (hs : ∀ n, Feeds s (observe p inp n) (inp n)) :
    (∀ n, let q := observe p inp n
      (q.1.transfers (inp n) →
        q.2.sent.length < f.height * f.width ∧
        ∀ r c, c < f.width → q.2.sent.length = r * f.width + c → ∀ a b : Fin g.kernelSize,
          q.1.process.window a b = s (r * f.pitch + c + a.val * g.maxImageWidth + b.val)) ∧
      (q.1.control.currentState = .S0 → q.1.control = {} ∧
        (q.2.sent.length = 0 ∨ q.2.sent.length = f.height * f.width))) ∧
    ((∀ n, (observe p inp n).1.regs.controlBit) → (∀ n, ∃ m ≥ n, (inp m).asiInValid) →
      (∀ n, ∃ m ≥ n, (inp m).asoOutReady) → ∃ n, FrameDone f (observe p inp n)) :=
  ⟨fun _ => transfers_window hT hB f s hp (fun m _ => hc m) fun m _ => hs m,
    frame_completes hp hc⟩

/-- A source that sends the pixels `v` of a frame can be attached to the component. -/
theorem exists_feed (p : Watched P) (v : ℕ → BitVec g.pixelWidth) : ∃ inp : ℕ → Pins g,
    ∀ n, inp n = { eager g with asiInData := v (observe p inp n).2.accepted.length } :=
  exists_feedback (watch Component.step FrameLog.record) p
    fun q => { eager g with asiInData := v q.2.accepted.length }

/-- A frame of two columns and three rows with pixel `k` of the value `k` goes through. -/
theorem stream_windows_two_by_three : ∃ inp : ℕ → Pins shipped,
    let f : FrameSize shipped := ⟨2, 3, by decide, by decide, by decide, by decide⟩
    let q := observe (Component.programmed (Parts.plain shipped) 2 3, {}) inp
    (∃ n, FrameDone f (q n)) ∧
      ∀ n, (q n).1.transfers (inp n) → ∀ r c, c < 2 → (q n).2.sent.length = r * 2 + c →
        ∀ a b, (q n).1.process.window a b =
          BitVec.ofNat 8 (r * f.pitch + c + a.val * shipped.maxImageWidth + b.val) := by
  obtain ⟨inp, hinp⟩ := exists_feed (Component.programmed (Parts.plain shipped) 2 3, {})
    fun k => BitVec.ofNat 8 k
  have hquiet : ∀ n, (inp n).Quiet := fun n => by rw [hinp]; exact eager_quiet shipped
  have hpins : ∀ n, (inp n).asiInValid ∧ (inp n).asoOutReady := fun n => by
    rw [hinp]
    exact ⟨rfl, rfl⟩
  obtain ⟨hwindow, hends⟩ := stream_windows (Parts.plain_delayLine shipped)
    (Parts.plain_keepsLast shipped) ⟨2, 3, by decide, by decide, by decide, by decide⟩
    (fun k => BitVec.ofNat 8 k) ⟨rfl, rfl⟩
    (configured_of_quiet (configured_programmed (by decide) (by decide)) hquiet)
    fun n _ => congrArg Pins.asiInData (hinp n)
  refine ⟨inp, hends (fun n => ?_) (fun n => ⟨n, le_rfl, (hpins n).1⟩)
    fun n => ⟨n, le_rfl, (hpins n).2⟩, fun n ht r c hc hrc a b =>
      ((hwindow n).1 ht).2 r c hc hrc a b⟩
  rw [observe, run_watch_fst, Component.controlBit_run_of_quiet _ hquiet]
  exact Component.programmed_controlBit (Parts.plain shipped) 2 3

end FirFilter.Hardware
