import Mathlib.Order.Bounds.Basic
import MicStream.Proofs.Localization.Windows
/-!
# Signals that change places

A lag moves the second of two signals against the first. With the signals
exchanged the opposite lag puts the same samples opposite each other, in the
same order, and the factors of a product can change places also in single
precision. So a lag scores to the last bit what the opposite one scores with
the signals exchanged. Of lags that score alike the search keeps the least,
though, and that is the opposite of the largest with the signals exchanged:
the two searches find opposite lags where one lag scores higher than all
others, and elsewhere the two ends of those that score highest.

Results:
* `facing_swap`, `windowScore_swap`: opposite lags of exchanged signals.
* `peak_of_finite`: the search ends at the least of the best lags.
* `neg_mem_bestLags_iff`: the best lags of exchanged signals.
* `peak_of_exchanged`: both searches, in single precision.
-/
namespace MicStream.Correlation

/-! ## Opposite lags -/

section Swap
variable {α : Type}

theorem facing_swap (a b : List α) (lag : Int) :
    facing b a (-lag) = (facing a b lag).map Prod.swap := by
  rw [facing_eq_overlap, facing_eq_overlap, overlap_eq, overlap_eq, neg_neg, List.zip_swap]

variable [Add α] [OfNat α 0]

theorem total_map (f : α × α → α) (g : α × α → α × α) (ps : List (α × α)) :
    total f (ps.map g) = total (fun p => f (g p)) ps := by
  rw [total, List.foldl_map, total]

variable [Mul α] [Div α] [LT α] [DecidableLT α] [OfScientific α] [Scalar α]

/-- Samples that face each other score the same both ways, if factors can change places. -/
theorem scoreOf_swap (hmul : ∀ x y : α, x * y = y * x) (ps : List (α × α)) :
    scoreOf (ps.map Prod.swap) = scoreOf ps := by
  have hproduct : product (ps.map Prod.swap) = product ps := by
    simp only [product, total_map, Prod.fst_swap, Prod.snd_swap, hmul]
  have henergy : energyNorm (ps.map Prod.swap) = energyNorm ps := by
    simp only [energyNorm, total_map, Prod.fst_swap, Prod.snd_swap]
    rw [hmul]
  rw [scoreOf_eq, scoreOf_eq, hproduct, henergy]

end Swap

/-! ## Best lags -/

section Best
variable {a b : List Float32} {maxLag lag : Int}

/-- In single precision a lag scores what the opposite one scores with the signals exchanged. -/
theorem windowScore_swap (a b : List Float32) (lag : Int) :
    windowScore? b a (-lag) = windowScore? a b lag := by
  rw [windowScore_eq, windowScore_eq, facing_swap, scoreOf_swap Rounded.mul_swap]

/-- The lags of a range that no lag of the range scores higher than. -/
def bestLags (a b : List Float32) (maxLag : Int) : Set Int :=
  {lag | |lag| ≤ maxLag ∧ ∀ l, |l| ≤ maxLag →
    ∀ s ∈ windowScore? a b l, ∀ t ∈ windowScore? a b lag, s ≤ t}

theorem mem_bestLags_iff : lag ∈ bestLags a b maxLag ↔ |lag| ≤ maxLag ∧
    ∀ l, |l| ≤ maxLag → scoreOf (facing a b l) ≤ scoreOf (facing a b lag) := by
  simp only [bestLags, Set.mem_ofPred_eq, windowScore_eq, Option.mem_some_iff, forall_eq']

theorem neg_mem_bestLags_iff : -lag ∈ bestLags b a maxLag ↔ lag ∈ bestLags a b maxLag := by
  simp only [bestLags, Set.mem_ofPred_eq, abs_neg, windowScore_swap]
  refine and_congr_right fun _ => ⟨fun hbest l hl => ?_, fun hbest l hl => ?_⟩
  · have hopposite := hbest (-l) (by rwa [abs_neg])
    rwa [windowScore_swap] at hopposite
  · have hopposite := hbest (-l) (by rwa [abs_neg])
    rwa [← windowScore_swap, neg_neg] at hopposite

/-- The search ends at the least of the best lags, if all scores are finite numbers. -/
theorem peak_of_finite (h : 0 ≤ maxLag)
    (hfinite : ∀ lag, |lag| ≤ maxLag → (scoreOf (facing a b lag)).isFinite = true) :
    ∃ lag, peak? a b maxLag = some ⟨scoreOf (facing a b lag), lag⟩ ∧
      IsLeast (bestLags a b maxLag) lag := by
  have hcomparable : Comparable (fun l => scoreOf (facing a b l)) (lags maxLag) :=
    comparable_of_finite fun l hl => hfinite l (mem_lags.1 hl)
  obtain ⟨lag, hlag, hpeak, hlargest, hleast⟩ := peak_of_comparable h hcomparable
  have hle : ∀ l m, |l| ≤ maxLag → |m| ≤ maxLag →
      (scoreOf (facing a b l) ≤ scoreOf (facing a b m) ↔
        ¬ scoreOf (facing a b m) < scoreOf (facing a b l)) := by
    intro l m hl hm
    rw [Rounded.le_iff_key (hfinite l hl) (hfinite m hm),
      Rounded.lt_iff_key (hfinite m hm) (hfinite l hl), not_lt]
  refine ⟨lag, ?_, ?_, fun l hl => ?_⟩
  · rw [peak?, if_pos (lagsFit_of_nonneg h), hpeak]
  · exact mem_bestLags_iff.2 ⟨hlag, fun l hl => (hle l lag hl hlag).2 (hlargest l hl)⟩
  · obtain ⟨hrange, hbest⟩ := mem_bestLags_iff.1 hl
    by_contra hless
    exact (hle lag l hlag hrange).1 (hbest lag hlag) (hleast l hrange (not_le.1 hless))

/-- Any two signals, and a range of lags at which all scores are finite numbers. With the signals
exchanged the same samples face each other at the opposite lag, in the same order, and score the
same. The search finds the least of the best lags, and with the signals exchanged the opposite of
the largest; the scores found are the same number. So the lags found are opposite if there is one
best lag. -/
theorem peak_of_exchanged (a b : List Float32) {maxLag : Int} (h : 0 ≤ maxLag)
    (hfinite : ∀ lag, |lag| ≤ maxLag → ∀ s ∈ windowScore? a b lag, s.isFinite = true) :
    (∀ lag, facing b a (-lag) = (facing a b lag).map Prod.swap ∧
      windowScore? b a (-lag) = windowScore? a b lag) ∧
    ∃ p q, peak? a b maxLag = some p ∧ peak? b a maxLag = some q ∧
      windowScore? a b p.lag = some p.correlation ∧
      windowScore? a b (-q.lag) = some q.correlation ∧
      (p.correlation == q.correlation) = true ∧
      IsLeast (bestLags a b maxLag) p.lag ∧ IsGreatest (bestLags a b maxLag) (-q.lag) ∧
      ((∃! lag, lag ∈ bestLags a b maxLag) → q.lag = -p.lag) := by
  simp only [windowScore_eq, Option.mem_some_iff, forall_eq'] at hfinite
  have hexchanged : ∀ lag, scoreOf (facing b a lag) = scoreOf (facing a b (-lag)) := by
    intro lag
    rw [← scoreOf_swap Rounded.mul_swap, ← facing_swap]
  obtain ⟨first, hfirst, hleast⟩ := peak_of_finite h hfinite
  obtain ⟨last, hlast, hopposite⟩ := peak_of_finite (a := b) (b := a) h fun lag hlag => by
    rw [hexchanged]
    exact hfinite (-lag) (by rwa [abs_neg])
  have hgreatest : IsGreatest (bestLags a b maxLag) (-last) := by
    refine ⟨neg_mem_bestLags_iff.2 hopposite.1, fun lag hlag => ?_⟩
    exact le_neg_of_le_neg (hopposite.2 (neg_mem_bestLags_iff.2 hlag))
  have hsame : (scoreOf (facing a b first) == scoreOf (facing b a last)) = true := by
    obtain ⟨hin, hbest⟩ := mem_bestLags_iff.1 hleast.1
    obtain ⟨hin', hbest'⟩ := mem_bestLags_iff.1 hgreatest.1
    have hle := hbest' first hin
    have hge := hbest (-last) hin'
    rw [Rounded.le_iff_key (hfinite _ hin) (hfinite _ hin')] at hle
    rw [Rounded.le_iff_key (hfinite _ hin') (hfinite _ hin)] at hge
    rw [hexchanged, Rounded.beq_iff_key (hfinite _ hin) (hfinite _ hin')]
    exact le_antisymm hle hge
  refine ⟨fun lag => ⟨facing_swap a b lag, windowScore_swap a b lag⟩, _, _, hfirst, hlast,
    windowScore_eq _ _ _, ?_, hsame, hleast, hgreatest, fun hone => ?_⟩
  · rw [windowScore_eq, ← hexchanged]
  · rw [hone.unique hleast.1 hgreatest.1, neg_neg]

/-- Three samples and four, of which the last faces none. Lags 1 and 2 score the same. -/
theorem peak_of_exchanged_sample : (0 : Int) ≤ 3 ∧
    (∀ lag, |lag| ≤ 3 → ∀ s ∈ windowScore? [0, 3, 4] [3, 4, 0, 9] lag, Float32.isFinite s = true) ∧
    ∃ p q : Peak Float32, peak? [0, 3, 4] [3, 4, 0, 9] 3 = some p ∧ p.lag = 1 ∧
      peak? [3, 4, 0, 9] [0, 3, 4] 3 = some q ∧ q.lag = -2 ∧
      IsGreatest (bestLags [0, 3, 4] [3, 4, 0, 9] 3) 2 := by
  have hfinite : ∀ lag, |lag| ≤ 3 → ∀ s ∈ windowScore? [0, 3, 4] [3, 4, 0, 9] lag,
      Float32.isFinite s = true := by
    simp only [← mem_lags]
    decide +kernel
  obtain ⟨-, p, q, hp, hq, -, -, -, -, hgreatest, -⟩ :=
    peak_of_exchanged [0, 3, 4] [3, 4, 0, 9] (show (0 : Int) ≤ 3 by decide) hfinite
  have hthere : (peak? ([0, 3, 4] : List Float32) [3, 4, 0, 9] 3).map Peak.lag = some 1 := by
    decide +kernel
  have hback : (peak? ([3, 4, 0, 9] : List Float32) [0, 3, 4] 3).map Peak.lag = some (-2) := by
    decide +kernel
  rw [hp, Option.map_some, Option.some.injEq] at hthere
  rw [hq, Option.map_some, Option.some.injEq] at hback
  rw [hback] at hgreatest
  exact ⟨by decide, hfinite, p, q, hp, hthere, hq, hback, hgreatest⟩

end Best

end MicStream.Correlation
