import FirFilter.System.Session
import FirFilter.Hardware.Polling
/-!
# FirFilter.System.Jobs

One job after another: how a driver reprograms the component.

A job is a mask, a size and any number of images. The driver writes them while the control
bit is clear, sets the bit, clears it again when it has had enough, and reads the status
until it is `0`. Then the next job may come, with another mask and another height. The rules
are about the bus alone: `Underway` is what the driver and the source keep to while a job is
on, and `Finished` is a sequence of jobs that were seen to end.
-/

namespace FirFilter.System

open Clocked Hardware Software Matrix

variable {g : Generics} {P : Parts g}

/-- A mask and images of one size, and what the blocks hold that `main.c` allocates for each. -/
structure Job where
  size : OutputSize
  mask : Matrix (Fin 7) (Fin 7) Int16
  images : ℕ → Matrix (Fin size.height.toNat) (Fin size.width.toNat) UInt8
  fresh : ℕ → Heap

namespace Job

/-- The size suits the component, and no sum of an image exceeds its output. -/
structure Suits (g : Generics) (j : Job) : Prop where
  fits : Fits g j.size.toImageSize
  sums : ∀ k i l, -2 ^ 21 ≤ referenceSum j.maskᵀ (j.images k) i l ∧
    referenceSum j.maskᵀ (j.images k) i l < 2 ^ 21

/-- What `main.c` writes for the first `k` images, without the headers. -/
def output (j : Job) (k : ℕ) : List UInt8 :=
  mainBytes j.size.toImageSize j.mask j.images j.fresh k

/-- The job is started in cycle `a`, after a stop in cycle `e` or before, and is on up to
cycle `n`: until the start the control bit is clear, from then on the words stay those of
the job, and the beats accepted are the images. -/
structure Underway (s : Component P) (inp : ℕ → Pins g) (e a n : ℕ) (j : Job) : Prop where
  suits : j.Suits g
  stopped_le : e ≤ a
  started_le : a ≤ n
  stopped : ∀ m, e ≤ m → m < a → (busWords inp m (controlAddr g)).getLsbD 0 = false
  words : ∀ m, a ≤ m → m ≤ n → Words j.size.toImageSize (fwriteInt16 j.mask) inp m
  feed : ∀ m, a ≤ m → m < n → (run Component.step s inp m).accepts (inp m) →
    (inp m).asiInData =
      imageStream j.size.toImageSize j.images g (beatsTaken s inp m - beatsTaken s inp a)

/-- The images done between two cycles. -/
def imagesDone (s : Component P) (inp : ℕ → Pins g) (a n : ℕ) : ℕ :=
  framesDone s inp n - framesDone s inp a

end Job

/-- A status read in cycle `n` returns `0`. -/
structure ReadsIdle (s : Component P) (inp : ℕ → Pins g) (n : ℕ) : Prop where
  reset : (inp n).reset = false
  address : (inp n).avsParamsAddress.toNat = 1
  readdata : (run Component.step s inp (n + 1)).regs.avsParamsReaddata = 0

/-- The jobs done by cycle `e`, each with its start and its end. -/
inductive Finished (s : Component P) (inp : ℕ → Pins g) : List (Job × ℕ × ℕ) → ℕ → Prop
  | none : Finished s inp [] 0
  | next {js : List (Job × ℕ × ℕ)} {e a n : ℕ} {j : Job} (h : Finished s inp js e)
      (hj : j.Underway s inp e a n) (hidle : ReadsIdle s inp n) :
      Finished s inp (js ++ [(j, a, n)]) n

/-- What `main.c` writes for the images done. -/
def jobsOutput (s : Component P) (inp : ℕ → Pins g) (js : List (Job × ℕ × ℕ)) : List UInt8 :=
  js.flatMap fun j => j.1.output (Job.imagesDone s inp j.2.1 j.2.2)

/-! ### Idle components -/

/-- Only a component in `S0` has the status `0`. -/
theorem ReadsIdle.idle (hK : AddressesFit g) {s : Component P} {inp : ℕ → Pins g} {n : ℕ}
    (h : ReadsIdle s inp n) : (run Component.step s inp n).Idle := by
  by_contra hbusy
  have hread := h.readdata
  rw [status_read hK h.reset h.address, if_neg hbusy] at hread
  have hone : 2 ^ g.dataBusWidth - 1 = 0 := by
    rw [← BitVec.toNat_allOnes, hread]
    rfl
  have := g.two_le_maxImageHeight
  have := g.maxImageHeight_lt
  omega

/-- In `S0` the counters are `0`. -/
theorem control_of_idle {f : FrameSize g} {s : Component P} {inp : ℕ → Pins g} {n : ℕ}
    (h0 : s.control = {})
    (hc : ∀ m ≤ n, Configured f.width f.height (run Component.step s inp m))
    (hidle : (run Component.step s inp n).Idle) : (run Component.step s inp n).control = {} := by
  have hstate : ∀ m, (observe (s, {}) inp m).1 = run Component.step s inp m :=
    fun m => run_watch_fst _ _ _ inp m
  have hinv : FrameInv f (observe (s, {}) inp n) := .of_run ⟨h0, rfl⟩ fun m hm => by
    rw [hstate]
    exact hc m hm
  rw [← hstate] at hidle ⊢
  exact (hinv.progress.at_idle hidle).1

/-! ### One job -/

/-- The words stay when the bus writes the control register only. -/
theorem Words.succ (hK : AddressesFit g) {d : ImageSize} {file : List UInt8} {inp : ℕ → Pins g}
    {n : ℕ} (h : Words d file inp n) (hr : (inp n).reset = false)
    (hw : (inp n).avsParamsWrite = true → (inp n).avsParamsAddress.toNat = 0) :
    Words d file inp (n + 1) := by
  have hkeep : ∀ a : BitVec g.addressBusWidth, a.toNat ≠ 0 →
      busWords inp (n + 1) a = busWords inp n a := by
    intro a ha
    have hop : ¬ (busOp (inp n)).Touches a := by
      unfold busOp
      rw [hr, if_neg Bool.false_ne_true]
      split
      · rename_i hwrite
        rintro rfl
        exact ha (hw hwrite)
      · exact id
    exact WordMemory.apply_of_not_touches hop
  have hfixed : ∀ {k : ℕ}, k < 4 → (BitVec.ofNat g.addressBusWidth k).toNat = k := fun hk =>
    (hK.eq_fixed_iff _ hk).mp rfl
  constructor
  · rw [hkeep _ (by rw [imageWidthAddr]; exact (hfixed (by decide)).trans_ne (by decide))]
    exact h.width
  · rw [hkeep _ (by rw [imageHeightAddr]; exact (hfixed (by decide)).trans_ne (by decide))]
    exact h.height
  · intro i
    rw [hkeep _ (by rw [hK.toNat_coeffsAddr i]; omega)]
    exact h.coeffs i

section Step

variable (hK : AddressesFit g) (hT : P.altshiftTaps.DelayLine g.maxImageWidth)
  (hB : P.registerBank.KeepsLast) (hP : P.PairsColumns) {s : Component P}
  (h0 : s.IsReset) {inp : ℕ → Pins g} {e a n : ℕ} {j : Job}
  (he : (run Component.step s inp e).control = {}) (hj : j.Underway s inp e a n)

include hK h0 he hj

/-- Up to the start nothing is sent. -/
theorem Job.Underway.before_start : (run Component.step s inp a).control = {} ∧
    sentDuring s inp a = sentDuring s inp e := by
  have hstopped : ∀ k, e ≤ k → k ≤ a → (run Component.step s inp k).control = {} :=
    fun k h1 h2 => control_while_stopped hK h0 he h1 fun i h3 h4 => hj.stopped i h3 (h4.trans_le h2)
  refine ⟨hstopped a hj.stopped_le le_rfl, ?_⟩
  obtain ⟨d, rfl⟩ := Nat.exists_eq_add_of_le hj.stopped_le
  have hnone : sentDuring (run Component.step s inp e) (fun k => inp (e + k)) d = [] := by
    refine sentDuring_of_idle fun k hk => ?_
    unfold Component.Idle
    rw [← run_add, hstopped (e + k) (Nat.le_add_right e k) (Nat.add_le_add_left hk e)]
  rw [sentDuring_add, hnone, List.append_nil]

/-- In `S0` the counters are `0` again. -/
theorem Job.Underway.control_of_idle (hidle : (run Component.step s inp n).Idle) :
    (run Component.step s inp n).control = {} := by
  obtain ⟨hstart, -⟩ := hj.before_start hK h0 he
  obtain ⟨d, rfl⟩ := Nat.exists_eq_add_of_le hj.started_le
  rw [run_add] at hidle ⊢
  refine System.control_of_idle (f := hj.suits.fits.frameSize) hstart (fun i hi => ?_) hidle
  rw [← run_add]
  exact (hj.words (a + i) (Nat.le_add_right a i) (Nat.add_le_add_left hi a)).configured hK h0

include hT hB hP

/-- **Step lemma.** What a job adds to the results. -/
theorem Job.Underway.refines : ∃ bytes,
    (sentDuring s inp n).flatMap resultBytes =
      (sentDuring s inp e).flatMap resultBytes ++ bytes ∧
    bytes <+: j.output (Job.imagesDone s inp a n + 1) ∧
    ((run Component.step s inp n).Idle → bytes = j.output (Job.imagesDone s inp a n)) := by
  obtain ⟨hstart, hsent⟩ := hj.before_start hK h0 he
  obtain ⟨d, rfl⟩ := Nat.exists_eq_add_of_le hj.started_le
  have hset : ∀ k, ∀ i ≤ d, Holds j.size.toImageSize
      (paddedHeap j.size.toImageSize j.mask (j.images k) emptyHeap)
      (run Component.step (run Component.step s inp a) (fun k => inp (a + k)) i) := by
    intro k i hi
    rw [← run_add]
    exact (hj.words (a + i) (Nat.le_add_right a i) (Nat.add_le_add_left hi a)).holds hK h0
      hj.suits.fits.widths (j.images k) emptyHeap
  have hsum : ∀ k, SumsInRange j.size.toImageSize
      (paddedHeap j.size.toImageSize j.mask (j.images k) emptyHeap) := by
    intro k i hi l hl
    rw [windowSum_paddedHeap j.size.toImageSize j.mask (j.images k) emptyHeap
      ⟨i, hi⟩ ⟨l, hl⟩]
    exact hj.suits.sums k ⟨i, hi⟩ ⟨l, hl⟩
  obtain ⟨hbegin, hwhole⟩ := started_refines hT hB hP hj.suits.fits j.mask j.images emptyHeap hsum
    hstart hset (fun i hi ha => by
      rw [← run_add] at ha
      rw [hj.feed (a + i) (Nat.le_add_right a i) (Nat.add_lt_add_left hi a) ha, beatsTaken_add,
        Nat.add_sub_cancel_left]) j.fresh
  have hdone : Job.imagesDone s inp a (a + d) =
      framesDone (run Component.step s inp a) (fun k => inp (a + k)) d := by
    rw [Job.imagesDone, framesDone_add, Nat.add_sub_cancel_left]
  refine ⟨_, ?_, hdone ▸ hbegin, fun hidle => ?_⟩
  · rw [sentDuring_add, List.flatMap_append, hsent]
  · rw [hdone]
    rw [run_add] at hidle
    exact hwhole hidle

end Step

/-! ### All jobs -/

/-- **Run lemma.** After the jobs that are done, by induction on them. -/
theorem Finished.refines (hK : AddressesFit g) (hT : P.altshiftTaps.DelayLine g.maxImageWidth)
    (hB : P.registerBank.KeepsLast) (hP : P.PairsColumns) {s : Component P}
    (h0 : s.IsReset) {inp : ℕ → Pins g} {js : List (Job × ℕ × ℕ)} {e : ℕ}
    (h : Finished s inp js e) : (run Component.step s inp e).control = {} ∧
      (sentDuring s inp e).flatMap resultBytes = jobsOutput s inp js := by
  induction h with
  | none => exact ⟨h0.2, rfl⟩
  | next _ hj hidle ih =>
      obtain ⟨hctl, hbytes⟩ := ih
      obtain ⟨bytes, hsent, -, hwhole⟩ := hj.refines hK hT hB hP h0 hctl
      refine ⟨hj.control_of_idle hK h0 hctl (hidle.idle hK), ?_⟩
      rw [hsent, hbytes, hwhole (hidle.idle hK), jobsOutput, jobsOutput, List.flatMap_append,
        List.flatMap_singleton]

/-- **Jobs in a row refine `main.c`.** From reset, with the jobs `js` done and another one
under way: the results sent are, byte for byte, what `main.c` writes for the images done of
each job in turn, and then a prefix of what it writes for the job under way; exactly that of
its images done when the component is in `S0`. No job sees the mask, the size or a pixel of
another one, under any handshakes and with any accesses in between. The jobs are those that
suit the component: the width it is built for, and no sum that exceeds its output. -/
theorem jobs_refine (hK : AddressesFit g) (hT : P.altshiftTaps.DelayLine g.maxImageWidth)
    (hB : P.registerBank.KeepsLast) (hP : P.PairsColumns) {s : Component P}
    (h0 : s.IsReset) {inp : ℕ → Pins g} {js : List (Job × ℕ × ℕ)} {e a n : ℕ} {j : Job}
    (h : Finished s inp js e) (hj : j.Underway s inp e a n) :
    ((sentDuring s inp n).flatMap resultBytes <+:
      jobsOutput s inp js ++ j.output (Job.imagesDone s inp a n + 1)) ∧
    ((run Component.step s inp n).Idle → (sentDuring s inp n).flatMap resultBytes =
      jobsOutput s inp js ++ j.output (Job.imagesDone s inp a n)) := by
  obtain ⟨hctl, hbytes⟩ := h.refines hK hT hB hP h0
  obtain ⟨bytes, hsent, hbegin, hwhole⟩ := hj.refines hK hT hB hP h0 hctl
  rw [hsent, hbytes]
  exact ⟨(List.prefix_append_right_inj _).mpr hbegin, fun hidle => by rw [hwhole hidle]⟩

/-! ### Two jobs -/

/-- White images of two columns and two rows through a mask. -/
def whiteJob (M : Matrix (Fin 7) (Fin 7) Int16) : Job where
  size := twoByTwo
  mask := M
  images _ := Matrix.of fun _ _ => 255
  fresh _ := emptyHeap

/-- The stream of the jobs, without bus accesses. -/
def whiteStream : Pins smallGenerics := { eager smallGenerics with asiInData := 255 }

/-- The mask that is `1` at its centre is stopped after one image, and the mask that is `0`
everywhere takes its place. -/
def twoJobs (n : ℕ) : Pins smallGenerics :=
  if n < 4 then whiteSession n
  else if n = 50 then { whiteStream with avsParamsWrite := true }
  else if n = 91 then { whiteStream with avsParamsAddress := 1 }
  else if n = 92 then { whiteStream with avsParamsWrite := true, avsParamsAddress := 28 }
  else if n = 93 then { whiteStream with avsParamsWrite := true, avsParamsWritedata := 1 }
  else whiteStream

theorem referenceSum_zero {h w : ℕ} [NeZero h] [NeZero w] (I : Matrix (Fin h) (Fin w) UInt8)
    (i : Fin h) (j : Fin w) : referenceSum 0 I i j = 0 := by
  have hmask : (0 : Matrix (Fin 7) (Fin 7) Int16).map Int16.toInt = 0 := by
    ext
    rfl
  rw [referenceSum, hmask]
  simp [imfilter]

/-- The component before the jobs. -/
abbrev resetComponent : Component (Parts.plain smallGenerics) :=
  (Component.programmed (Parts.plain smallGenerics) 2 2).clear

/-- From the first start on the stream is white, and only cycle `92` writes a coefficient. -/
theorem twoJobs_later {k : ℕ} (hk : 4 ≤ k) : (twoJobs k).reset = false ∧
    (twoJobs k).asiInData = 255 ∧
    (k ≠ 92 → (twoJobs k).avsParamsWrite = true → (twoJobs k).avsParamsAddress.toNat = 0) := by
  unfold twoJobs
  rw [if_neg (Nat.not_lt.mpr hk)]
  split_ifs with h1 h2 h3 h4
  · exact ⟨rfl, rfl, fun _ _ => rfl⟩
  · exact ⟨rfl, rfl, fun _ hw => by cases hw⟩
  · exact ⟨rfl, rfl, fun hne => absurd h3 hne⟩
  · exact ⟨rfl, rfl, fun _ _ => rfl⟩
  · exact ⟨rfl, rfl, fun _ _ => rfl⟩

/-- The words of a job stay up to its end. -/
theorem twoJobs_words {M : Matrix (Fin 7) (Fin 7) Int16} {a n : ℕ} (ha : 4 ≤ a)
    (hrange : n ≤ 92 ∨ 92 < a) (h : Words twoByTwo.toImageSize (fwriteInt16 M) twoJobs a) (k : ℕ)
    (hak : a ≤ k) (hkn : k ≤ n) : Words twoByTwo.toImageSize (fwriteInt16 M) twoJobs k := by
  induction k, hak using Nat.le_induction with
  | base => exact h
  | succ k hak ih =>
      obtain ⟨hreset, -, hwrite⟩ := twoJobs_later (ha.trans hak)
      exact (ih (Nat.le_of_succ_le hkn)).succ (by decide) hreset (hwrite (by omega))

theorem twoJobs_first : (whiteJob centreCoeffs).Underway resetComponent twoJobs 0 4 91 where
  suits := by
    have hsymm : centreCoeffsᵀ = centreCoeffs := Matrix.transpose_single _ _ _
    refine ⟨⟨⟨rfl, rfl, rfl, rfl⟩, rfl, by decide, by decide⟩, fun k i l => ?_⟩
    show _ ≤ referenceSum centreCoeffsᵀ _ i l ∧ referenceSum centreCoeffsᵀ _ i l < _
    rw [hsymm, referenceSum_centre]
    show (-2 ^ 21 : ℤ) ≤ 2 ^ 11 * (255 : UInt8).toNat ∧ (2 ^ 11 * (255 : UInt8).toNat : ℤ) < 2 ^ 21
    decide
  stopped_le := by decide
  started_le := by decide
  stopped := by decide +kernel
  words := twoJobs_words le_rfl (by decide)
    ⟨by decide, by decide, by decide +kernel⟩
  feed m hm _ _ := (twoJobs_later hm).2.1

theorem twoJobs_second : (whiteJob 0).Underway resetComponent twoJobs 91 94 181 where
  suits := by
    refine ⟨⟨⟨rfl, rfl, rfl, rfl⟩, rfl, by decide, by decide⟩, fun k i l => ?_⟩
    show _ ≤ referenceSum (0 : Matrix (Fin 7) (Fin 7) Int16)ᵀ _ i l ∧ referenceSum 0ᵀ _ i l < _
    rw [Matrix.transpose_zero, referenceSum_zero]
    decide
  stopped_le := by decide
  started_le := by decide
  stopped := fun m h1 h2 => by
    obtain rfl | rfl | rfl : m = 91 ∨ m = 92 ∨ m = 93 := by omega
    all_goals decide +kernel
  words := twoJobs_words (by decide) (by decide)
    ⟨by decide +kernel, by decide +kernel, by decide +kernel⟩
  feed m hm _ _ := (twoJobs_later (le_trans (by decide) hm)).2.1

/-- The results are those of one image of each job. -/
theorem jobs_refine_white :
    (sentDuring resetComponent twoJobs 181).flatMap resultBytes =
      (whiteJob centreCoeffs).output 1 ++ (whiteJob 0).output 1 := by
  have hread : ReadsIdle resetComponent twoJobs 91 := ⟨rfl, by decide +kernel, by decide +kernel⟩
  have hbytes := (jobs_refine (by decide) (Parts.plain_delayLine smallGenerics)
    (Parts.plain_keepsLast smallGenerics) (Parts.plain_pairsColumns smallGenerics)
    (Component.clear_isReset (Component.programmed (Parts.plain smallGenerics) 2 2))
    (Finished.none.next twoJobs_first hread) twoJobs_second).2 (by decide +kernel)
  have hfirst : Job.imagesDone resetComponent twoJobs 4 91 = 1 := by decide +kernel
  have hsecond : Job.imagesDone resetComponent twoJobs 94 181 = 1 := by decide +kernel
  rw [hsecond] at hbytes
  simpa [jobsOutput, hfirst] using hbytes

end FirFilter.System
