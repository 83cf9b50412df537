import MicStream.Proofs.Localization.Correlating
import MicStream.Proofs.Localization.Rounded
/-!
# The places that a lag compares

Two signals of one length are moved against each other by a lag. The places of
the first that then have a place of the second opposite are a window, which is
empty if the lag is at least the length. Reading all places of a window and
those opposite leaves neither signal, and gives the samples that the score is
made of. So the search returns the largest score of all windows and the least
lag that has it, whenever the scores are finite numbers.

Results:
* `mem_window`, `window_ascending`, `window_eq_nil_iff`: what a window is.
* `read_window`: reading a window stays inside both signals.
* `windowScore_eq`: the score by its places is that of the samples that face each other.
* `comparable_of_finite`: finite scores can be compared.
* `peak_of_windows`: the search, in single precision.
-/
namespace MicStream.Correlation

/-! ## Windows -/

/-- The places of the first of two signals that have one of the second opposite, in order. -/
def window (length : Nat) (lag : Int) : List Int :=
  let first := max lag 0
  let stop := if 0 ≤ lag then (length : Int) else length + lag
  (List.range (max stop first - first).toNat).map fun k : Nat => first + k

section Window
variable {length : Nat} {lag i : Int}

theorem mem_window :
    i ∈ window length lag ↔ (0 ≤ i ∧ i < length) ∧ 0 ≤ i - lag ∧ i - lag < length := by
  simp only [window, List.mem_map, List.mem_range]
  constructor
  · rintro ⟨k, hk, rfl⟩
    split at hk <;> omega
  · intro hi
    refine ⟨(i - max lag 0).toNat, ?_, by omega⟩
    split <;> omega

theorem window_ascending (length : Nat) (lag : Int) : (window length lag).Pairwise (· < ·) := by
  rw [window, List.pairwise_map]
  apply List.pairwise_lt_range.imp
  intro i j hij
  omega

theorem window_eq_nil_iff : window length lag = [] ↔ (length : Int) ≤ |lag| := by
  rw [List.eq_nil_iff_forall_not_mem, le_abs]
  simp only [mem_window]
  constructor
  · intro hnone
    by_contra hshort
    exact hnone (max lag 0) (by omega)
  · intro hlong i hi
    omega

/-- A window is as long as the signals less the lag, and starts at the lag if this is positive. -/
theorem window_eq (length : Nat) (lag : Int) :
    window length lag =
      (List.range (length - lag.natAbs)).map fun k => ((lag.toNat + k : Nat) : Int) := by
  have hfirst : max lag 0 = lag.toNat := by omega
  have hcount : (max (if 0 ≤ lag then (length : Int) else length + lag) lag.toNat -
      lag.toNat).toNat = length - lag.natAbs := by
    split <;> omega
  simp only [window, hfirst, hcount, Int.natCast_add]

end Window

/-! ## Reading -/

section Reading
variable {α : Type}

def sample? (a : List α) (i : Int) : Option α := if 0 ≤ i then a[i.toNat]? else none

/-- The sample at a place of the first signal and the one of the second that a lag puts opposite,
unless one of them is outside. -/
def pair? (a b : List α) (lag i : Int) : Option (α × α) := do
  return (← sample? a i, ← sample? b (i - lag))

theorem sample?_natCast (a : List α) (n : Nat) : sample? a n = a[n]? := by
  rw [sample?, if_pos (Int.natCast_nonneg n), Int.toNat_natCast]

theorem overlap_eq (a b : List α) (lag : Int) :
    overlap a b lag = (a.drop lag.toNat).zip (b.drop (-lag).toNat) := by
  rw [overlap]
  split
  · next h =>
    have hnone : (-lag).toNat = 0 := by omega
    rw [hnone, List.drop_zero]
  · next h =>
    have hnone : lag.toNat = 0 := by omega
    rw [hnone, List.drop_zero]

/-- All reads of a window are inside both signals and give what faces each other. -/
theorem read_window {a b : List α} (h : a.length = b.length) (lag : Int) :
    (window a.length lag).map (pair? a b lag) = (overlap a b lag).map some := by
  rw [window_eq, overlap_eq, List.map_map]
  apply List.ext_getElem
  · simp only [List.length_map, List.length_range, List.length_zip, List.length_drop]
    omega
  · intro k hk hk'
    simp only [List.length_map, List.length_zip, List.length_drop] at hk'
    have hopposite : ((lag.toNat + k : Nat) : Int) - lag = ((-lag).toNat + k : Nat) := by omega
    simp only [List.getElem_map, List.getElem_range, Function.comp_apply, List.getElem_zip,
      List.getElem_drop, pair?, hopposite, sample?_natCast]
    rw [List.getElem?_eq_getElem (by omega), List.getElem?_eq_getElem (by omega)]
    rfl

def cut (a b : List α) : List α := a.take (min a.length b.length)

theorem facing_eq_overlap (a b : List α) (lag : Int) :
    facing a b lag = overlap (cut a b) (cut b a) lag := by
  rw [facing, cut, cut, Nat.min_comm b.length]

/-- All reads of a window of the common length are inside both signals cut to it. -/
theorem read_cut (a b : List α) (lag : Int) :
    (window (min a.length b.length) lag).map (pair? (cut a b) (cut b a) lag) =
      (facing a b lag).map some := by
  have hfirst : (cut a b).length = min a.length b.length := by
    simp [cut]
  have hsecond : (cut a b).length = (cut b a).length := by
    simp only [cut, List.length_take]
    omega
  rw [facing_eq_overlap, ← hfirst]
  exact read_window hsecond lag

theorem facing_eq_nil {a b : List α} {lag : Int} (h : (min a.length b.length : Nat) ≤ |lag|) :
    facing a b lag = [] := by
  have hreads := read_cut a b lag
  rw [window_eq_nil_iff.2 h, List.map_nil] at hreads
  exact List.map_eq_nil_iff.1 hreads.symm

variable [Add α] [OfNat α 0]

/-- `∑ f (a[i], b[i - lag])` over the window of a lag, added up from the left, unless a place is
outside of the signals cut to their common length. -/
def windowTotal? (f : α × α → α) (a b : List α) (lag : Int) : Option α :=
  (window (min a.length b.length) lag).foldlM
    (fun s i => (pair? (cut a b) (cut b a) lag i).map fun p => s + f p) 0

/-- A fold over what is read is the fold over what was read, if every read gives something. -/
theorem foldlM_of_reads {ι β γ : Type} {read : ι → Option β} {add : γ → β → γ} :
    ∀ {is : List ι} {ps : List β}, is.map read = ps.map some → ∀ s,
      is.foldlM (fun s i => (read i).map (add s)) s = some (ps.foldl add s)
  | [], [], _, s => rfl
  | i :: is, p :: ps, h, s => by
    rw [List.map_cons, List.map_cons, List.cons.injEq] at h
    rw [List.foldlM_cons, h.1]
    exact foldlM_of_reads h.2 (add s p)

theorem windowTotal_eq (f : α × α → α) (a b : List α) (lag : Int) :
    windowTotal? f a b lag = some (total f (facing a b lag)) :=
  foldlM_of_reads (read_cut a b lag) 0

end Reading

/-! ## Scores by places -/

section Scores
variable {α : Type} [Add α] [Mul α] [Div α] [LT α] [DecidableLT α] [OfNat α 0] [OfScientific α]
  [Scalar α]

/-- The inner product over the window of a lag, divided by the root of the product of the energies
over it if this is not next to nothing, unless a place is outside. -/
def windowScore? (a b : List α) (lag : Int) : Option α := do
  let product ← windowTotal? (fun p => p.1 * p.2) a b lag
  let energy₁ ← windowTotal? (fun p => p.1 * p.1) a b lag
  let energy₂ ← windowTotal? (fun p => p.2 * p.2) a b lag
  let norm := Scalar.sqrt (energy₁ * energy₂)
  return if 1e-10 < norm then product / norm else product

theorem windowScore_eq (a b : List α) (lag : Int) :
    windowScore? a b lag = some (scoreOf (facing a b lag)) := by
  simp only [windowScore?, windowTotal_eq]
  rfl

end Scores

/-! ## Single precision -/

theorem lagsFit_of_nonneg {maxLag : Int} (h : 0 ≤ maxLag) : lagsFit maxLag = true := by
  apply decide_eq_true
  rw [maxInt32]
  omega

theorem comparable_of_finite {score : Int → Float32} {ls : List Int}
    (h : ∀ l ∈ ls, (score l).isFinite = true) : Comparable score ls where
  ranks l hl := Rounded.ranks_of_finite (h l hl)
  asymm l hl m hm hless hmore := by
    rw [Rounded.lt_iff_key (h l hl) (h m hm)] at hless
    rw [Rounded.lt_iff_key (h m hm) (h l hl)] at hmore
    exact lt_asymm hless hmore
  between l hl m hm n hn hless := by
    rw [Rounded.lt_iff_key (h l hl) (h m hm)] at hless
    rw [Rounded.lt_iff_key (h l hl) (h n hn), Rounded.lt_iff_key (h n hn) (h m hm)]
    exact (lt_or_ge _ _).imp_right fun hle => hle.trans_lt hless

/-- Any two signals. A lag compares just the places of the first that are within the shorter
signal and have one within it opposite; all reads are inside. If all scores are finite numbers, the
search returns the largest of them, and of the lags that have it the least. Nothing faces each
other, and the score is zero, at lags that are no shorter than the shorter signal. -/
theorem peak_of_windows (a b : List Float32) {maxLag : Int} (h : 0 ≤ maxLag) :
    (∀ lag i, i ∈ window (min a.length b.length) lag ↔
      (0 ≤ i ∧ i < min a.length b.length) ∧ 0 ≤ i - lag ∧ i - lag < min a.length b.length) ∧
    (∀ lag, (window (min a.length b.length) lag).Pairwise (· < ·)) ∧
    (∀ lag, (windowScore? a b lag).isSome = true) ∧
    (∀ lag, (min a.length b.length : Int) ≤ |lag| → windowScore? a b lag = some 0) ∧
    ((∀ lag, |lag| ≤ maxLag → ∀ s ∈ windowScore? a b lag, s.isFinite = true) →
      ∃ best lag, peak? a b maxLag = some ⟨best, lag⟩ ∧ |lag| ≤ maxLag ∧
        windowScore? a b lag = some best ∧
        ∀ l, |l| ≤ maxLag → ∀ s ∈ windowScore? a b l,
          s ≤ best ∧ (l < lag → s < best)) := by
  simp only [windowScore_eq, Option.mem_some_iff, forall_eq']
  refine ⟨fun lag i => ?_, window_ascending _, fun lag => rfl, fun lag hlag => ?_,
    fun hfinite => ?_⟩
  · rw [mem_window, Nat.cast_min]
  · rw [facing_eq_nil (by rwa [Nat.cast_min])]
    rfl
  · have hcomparable : Comparable (fun l => scoreOf (facing a b l)) (lags maxLag) :=
      comparable_of_finite fun l hl => hfinite l (mem_lags.1 hl)
    obtain ⟨lag, hlag, hpeak, hlargest, hleast⟩ := peak_of_comparable h hcomparable
    refine ⟨_, lag, ?_, hlag, rfl, fun l hl => ⟨?_, hleast l hl⟩⟩
    · rw [peak?, if_pos (lagsFit_of_nonneg h), hpeak]
    · rw [Rounded.le_iff_key (hfinite l hl) (hfinite lag hlag)]
      have hnot := hlargest l hl
      rw [Rounded.lt_iff_key (hfinite lag hlag) (hfinite l hl)] at hnot
      exact not_lt.1 hnot

/-- Three samples and four, of which the last faces none. Two of the lags score 1. -/
theorem peak_of_windows_sample : (0 : Int) ≤ 3 ∧
    (∀ lag, |lag| ≤ 3 → ∀ s ∈ windowScore? [0, 3, 4] [3, 4, 0, 9] lag, Float32.isFinite s = true) ∧
    ∃ best : Float32, peak? [0, 3, 4] [3, 4, 0, 9] 3 = some ⟨best, 1⟩ ∧
      windowScore? [0, 3, 4] [3, 4, 0, 9] 1 = some best ∧
      windowScore? [0, 3, 4] [3, 4, 0, 9] 2 = some best := by
  have hfinite : ∀ lag, |lag| ≤ 3 → ∀ s ∈ windowScore? [0, 3, 4] [3, 4, 0, 9] lag,
      Float32.isFinite s = true := by
    intro lag hlag
    have hall : ∀ l ∈ lags 3, ∀ s ∈ windowScore? [0, 3, 4] [3, 4, 0, 9] l,
        Float32.isFinite s = true := by
      decide +kernel
    exact hall lag (mem_lags.2 hlag)
  obtain ⟨-, -, -, -, hsearch⟩ :=
    peak_of_windows [0, 3, 4] [3, 4, 0, 9] (show (0 : Int) ≤ 3 by decide)
  obtain ⟨best, lag, hpeak, -, hbest, -⟩ := hsearch hfinite
  have hone : peak? ([0, 3, 4] : List Float32) [3, 4, 0, 9] 3 = some ⟨1, 1⟩ := by
    decide +kernel
  obtain ⟨rfl, rfl⟩ : best = 1 ∧ lag = 1 := by
    rw [hpeak] at hone
    simpa using hone
  exact ⟨by decide, hfinite, 1, hpeak, hbest, by decide +kernel⟩

end MicStream.Correlation
