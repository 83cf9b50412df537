import Mathlib.Algebra.BigOperators.Group.List.Basic
import Mathlib.Algebra.Order.BigOperators.Group.List
import Mathlib.Algebra.QuadraticDiscriminant
import MicStream.Localization.Localizer
import MicStream.Proofs.Localization.Exact
/-!
# Lags of delayed signals

The search over the lags finds the first of the largest scores. Over the reals
a score is at most 1 in magnitude, by the inequality of Cauchy and Schwarz,
and it is 1 exactly if the samples that face each other are positive
multiples of each other and not next to silent. A signal that is delayed by
whole samples faces itself at one lag; so it is found there with score 1,
unless another lag does as well.

Results:
* `foldl_better`, `peak_of_comparable`: where the search ends, for any scores that can be compared.
* `mem_overlap_iff`: which samples face each other.
* `abs_scoreOf_le`, `scoreOf_eq_one_iff`: the range of the scores, and when they are largest.
* `delays_of_correlation`: the delays that a localizer finds.
-/
namespace MicStream

namespace Correlation

/-! ## The search -/

section Search
variable {α : Type} [LT α] [Scalar α]

/-- Scores that all take part in a search and are told apart by comparing them. -/
structure Comparable (score : Int → α) (ls : List Int) : Prop where
  ranks : ∀ l ∈ ls, Scalar.ranks (score l) = true
  asymm : ∀ l ∈ ls, ∀ m ∈ ls, score l < score m → ¬ score m < score l
  between : ∀ l ∈ ls, ∀ m ∈ ls, ∀ n ∈ ls, score l < score m → score l < score n ∨ score n < score m

theorem Comparable.mono {score : Int → α} {ls ms : List Int} (h : Comparable score ls)
    (hsub : ms ⊆ ls) : Comparable score ms :=
  ⟨fun l hl => h.ranks l (hsub hl), fun l hl m hm => h.asymm l (hsub hl) m (hsub hm),
    fun l hl m hm n hn => h.between l (hsub hl) m (hsub hm) n (hsub hn)⟩

variable [DecidableLT α]

/-- The search ends at a lag that scores higher than all before it, and that none behind it
beats. -/
theorem foldl_better {score : Int → α} {ls : List Int} (h : Comparable score ls) (hne : ls ≠ []) :
    ∃ before lag after, ls = before ++ lag :: after ∧
      ls.foldl (fun p l => better p ⟨score l, l⟩) none = some ⟨score lag, lag⟩ ∧
      (∀ l ∈ before, score l < score lag) ∧ ∀ l ∈ after, ¬ score lag < score l := by
  induction ls using List.reverseRecOn with
  | nil => exact absurd rfl hne
  | append_singleton ls new ih =>
    rw [List.foldl_concat]
    by_cases hls : ls = []
    · subst hls
      refine ⟨[], new, [], rfl, ?_, by simp, by simp⟩
      simp only [List.foldl_nil, better, h.ranks new (by simp), if_true]
    · obtain ⟨before, lag, after, rfl, hfold, hbefore, hafter⟩ :=
        ih (h.mono (List.subset_append_left _ _)) hls
      rw [hfold]
      by_cases hnew : score lag < score new
      · -- what the old one beat or was not beaten by is below the new one
        refine ⟨before ++ lag :: after, new, [], rfl, ?_, ?_, by simp⟩
        · simp only [better, hnew, if_true]
        · intro l hl
          rcases List.mem_append.1 hl with hl | hl
          · have hless := h.between l (by simp [hl]) lag (by simp) new (by simp) (hbefore l hl)
            exact hless.resolve_right (h.asymm lag (by simp) new (by simp) hnew)
          · rcases List.mem_cons.1 hl with rfl | hl
            · exact hnew
            · exact (h.between lag (by simp) new (by simp) l (by simp [hl]) hnew).resolve_left
                (hafter l hl)
      · refine ⟨before, lag, after ++ [new], by simp, ?_, hbefore, ?_⟩
        · simp only [better, hnew, if_false]
        · intro l hl
          rcases List.mem_append.1 hl with hl | hl
          · exact hafter l hl
          · rw [List.mem_singleton.1 hl]
            exact hnew

end Search

theorem mem_lags {maxLag lag : Int} : lag ∈ lags maxLag ↔ |lag| ≤ maxLag := by
  simp only [lags, List.mem_map, List.mem_range, abs_le]
  constructor
  · rintro ⟨i, hi, rfl⟩
    omega
  · rintro ⟨hlow, hhigh⟩
    exact ⟨(lag + maxLag).toNat, by omega, by omega⟩

theorem lags_ascending (maxLag : Int) : (lags maxLag).Pairwise (· < ·) := by
  rw [lags, List.pairwise_map]
  apply List.pairwise_lt_range.imp
  intro i j hij
  omega

/-! ## Facing samples -/

section Facing
variable {α : Type}

/-- Facing samples are those whose places differ by the lag. -/
theorem mem_overlap_iff {a b : List α} {lag : Int} {p : α × α} :
    p ∈ overlap a b lag ↔
      ∃ i j : Nat, (i : Int) - j = lag ∧ a[i]? = some p.1 ∧ b[j]? = some p.2 := by
  unfold overlap
  split
  · next hlag =>
    rw [List.mem_iff_getElem?]
    simp only [List.getElem?_zip_eq_some, List.getElem?_drop]
    constructor
    · rintro ⟨n, ha, hb⟩
      exact ⟨lag.toNat + n, n, by omega, ha, hb⟩
    · rintro ⟨i, j, hij, ha, hb⟩
      obtain rfl : i = lag.toNat + j := by omega
      exact ⟨j, ha, hb⟩
  · next hlag =>
    rw [List.mem_iff_getElem?]
    simp only [List.getElem?_zip_eq_some, List.getElem?_drop]
    constructor
    · rintro ⟨n, ha, hb⟩
      exact ⟨n, (-lag).toNat + n, by omega, ha, hb⟩
    · rintro ⟨i, j, hij, ha, hb⟩
      obtain rfl : j = (-lag).toNat + i := by omega
      exact ⟨i, ha, hb⟩

/-- The samples of two signals that face each other at a lag, both cut to the length of the
shorter. -/
def facing (a b : List α) (lag : Int) : List (α × α) :=
  overlap (a.take (min a.length b.length)) (b.take (min a.length b.length)) lag

/-- The second signal is the first delayed, wherever both have a sample. -/
def Delayed (a b : List α) (k : Int) : Prop :=
  ∀ i j : Nat, (j : Int) = i + k → ∀ x y, a[i]? = some x → b[j]? = some y → y = x

theorem Delayed.facing {a b : List α} {k : Int} (h : Delayed a b k) {p : α × α}
    (hp : p ∈ facing a b (-k)) : p.2 = p.1 := by
  obtain ⟨i, j, hij, ha, hb⟩ := mem_overlap_iff.1 hp
  rw [List.getElem?_take] at ha hb
  split at ha
  · split at hb
    · exact h i j (by omega) p.1 p.2 ha hb
    · cases hb
  · cases ha

end Facing

/-! ## Scores -/

section Scores
variable {α : Type} [Add α] [Mul α] [Div α] [LT α] [DecidableLT α] [OfNat α 0] [OfScientific α]
  [Scalar α]

def product (ps : List (α × α)) : α := total (fun p => p.1 * p.2) ps

def energyNorm (ps : List (α × α)) : α :=
  Scalar.sqrt (total (fun p => p.1 * p.1) ps * total (fun p => p.2 * p.2) ps)

theorem scoreOf_eq (ps : List (α × α)) :
    scoreOf ps = if 1e-10 < energyNorm ps then product ps / energyNorm ps else product ps := rfl

/-- If the scores can be compared, the best lag is the least of those that no other scores higher
than. -/
theorem peak_of_comparable {a b : List α} {maxLag : Int} (h : 0 ≤ maxLag)
    (hcomparable : Comparable (fun l => scoreOf (facing a b l)) (lags maxLag)) :
    ∃ lag, |lag| ≤ maxLag ∧ peak a b maxLag = ⟨scoreOf (facing a b lag), lag⟩ ∧
      (∀ l, |l| ≤ maxLag → ¬ scoreOf (facing a b lag) < scoreOf (facing a b l)) ∧
      ∀ l, |l| ≤ maxLag → l < lag → scoreOf (facing a b l) < scoreOf (facing a b lag) := by
  have hzero : (0 : Int) ∈ lags maxLag := mem_lags.2 (by simpa using h)
  obtain ⟨before, lag, after, hlags, hfold, hbefore, hafter⟩ :=
    foldl_better hcomparable (List.ne_nil_of_mem hzero)
  have hlag : lag ∈ lags maxLag := by simp [hlags]
  have hsplit : ∀ l, |l| ≤ maxLag → l ∈ before ∨ l = lag ∨ l ∈ after := by
    intro l hl
    have hmem := mem_lags.2 hl
    rw [hlags, List.mem_append, List.mem_cons] at hmem
    exact hmem
  refine ⟨lag, mem_lags.1 hlag, ?_, fun l hl hless => ?_, fun l hl hless => ?_⟩
  · exact congrArg (Option.getD · ⟨Scalar.unranked, 0⟩) hfold
  · rcases hsplit l hl with hl | rfl | hl
    · exact hcomparable.asymm lag hlag l (by simp [hlags, hl]) hless (hbefore l hl)
    · exact hcomparable.asymm l hlag l hlag hless hless
    · exact hafter l hl hless
  · rcases hsplit l hl with hl | rfl | hl
    · exact hbefore l hl
    · exact absurd hless (lt_irrefl l)
    · have hascending := lags_ascending maxLag
      rw [hlags, List.pairwise_append, List.pairwise_cons] at hascending
      exact absurd (hascending.2.1.1 l hl) (lt_asymm hless)

end Scores

section Real
variable {ps : List (ℝ × ℝ)}

theorem total_eq_sum (f : ℝ × ℝ → ℝ) (ps : List (ℝ × ℝ)) : total f ps = (ps.map f).sum := by
  rw [total, List.sum_eq_foldl, List.foldl_map]

theorem total_nonneg {f : ℝ × ℝ → ℝ} (h : ∀ p, 0 ≤ f p) (ps : List (ℝ × ℝ)) : 0 ≤ total f ps := by
  rw [total_eq_sum]
  refine List.sum_nonneg fun x hx => ?_
  obtain ⟨p, -, rfl⟩ := List.mem_map.1 hx
  exact h p

theorem total_combination (x y : ℝ) (ps : List (ℝ × ℝ)) :
    total (fun p => (x * p.1 + y * p.2) ^ 2) ps =
      x ^ 2 * total (fun p => p.1 * p.1) ps + 2 * x * y * product ps +
        y ^ 2 * total (fun p => p.2 * p.2) ps := by
  simp only [product, total_eq_sum]
  induction ps with
  | nil => simp
  | cons p ps ih =>
    simp only [List.map_cons, List.sum_cons, ih]
    ring

/-- The inequality of Cauchy and Schwarz. -/
theorem sq_product_le (ps : List (ℝ × ℝ)) :
    product ps ^ 2 ≤ total (fun p => p.1 * p.1) ps * total (fun p => p.2 * p.2) ps := by
  have hquadratic : ∀ x : ℝ, 0 ≤ total (fun p => p.1 * p.1) ps * (x * x) + 2 * product ps * x +
      total (fun p => p.2 * p.2) ps := by
    intro x
    have hnonneg := total_nonneg (fun p => sq_nonneg (x * p.1 + 1 * p.2)) ps
    rw [total_combination] at hnonneg
    linarith
  have hdiscrim := discrim_le_zero hquadratic
  rw [discrim] at hdiscrim
  linarith

theorem abs_product_le (ps : List (ℝ × ℝ)) : |product ps| ≤ energyNorm ps :=
  Real.abs_le_sqrt (sq_product_le ps)

/-- One of the two signals is a positive multiple of the other. -/
def Proportional (ps : List (ℝ × ℝ)) : Prop := ∃ t > 0, ∀ p ∈ ps, p.2 = t * p.1

theorem abs_scoreOf_le (ps : List (ℝ × ℝ)) : |scoreOf ps| ≤ 1 := by
  rw [scoreOf_eq]
  split
  · next hloud =>
    have hpos : 0 < energyNorm ps := lt_trans (by norm_num) hloud
    rw [abs_div, abs_of_pos hpos, div_le_one hpos]
    exact abs_product_le ps
  · next hquiet =>
    exact (abs_product_le ps).trans ((not_lt.1 hquiet).trans (by norm_num))

theorem total_eq_zero {f : ℝ × ℝ → ℝ} (h : ∀ p, 0 ≤ f p) (hzero : total f ps = 0) :
    ∀ p ∈ ps, f p = 0 := by
  rw [total_eq_sum] at hzero
  have hall : ∀ x ∈ ps.map f, 0 ≤ x := by
    intro x hx
    obtain ⟨p, -, rfl⟩ := List.mem_map.1 hx
    exact h p
  exact fun p hp => List.all_zero_of_le_zero_le_of_sum_eq_zero hall hzero (List.mem_map_of_mem hp)

theorem total_of_multiple {f g : ℝ × ℝ → ℝ} {t : ℝ} (h : ∀ p ∈ ps, f p = t * g p) :
    total f ps = t * total g ps := by
  rw [total_eq_sum, total_eq_sum, ← List.sum_map_mul_left, List.map_congr_left h]

/-- What remains of the second signal without its part along the first has no energy. -/
theorem proportional_of_product_eq (hpos : 0 < energyNorm ps) (h : product ps = energyNorm ps) :
    Proportional ps := by
  have hnonneg₁ := total_nonneg (fun p => mul_self_nonneg p.1) ps
  have hnonneg₂ := total_nonneg (fun p => mul_self_nonneg p.2) ps
  have hrest := total_combination (-product ps) (total (fun p => p.1 * p.1) ps) ps
  have hnorm : product ps * product ps =
      total (fun p => p.1 * p.1) ps * total (fun p => p.2 * p.2) ps := by
    rw [h]
    exact Real.mul_self_sqrt (mul_nonneg hnonneg₁ hnonneg₂)
  rw [← h] at hpos
  generalize total (fun p => p.1 * p.1) ps = energy at *
  have hzero : total (fun p => (-product ps * p.1 + energy * p.2) ^ 2) ps = 0 := by
    rw [hrest]
    linear_combination (-energy) * hnorm
  have henergy : 0 < energy := by
    refine lt_of_le_of_ne hnonneg₁ ?_
    rintro rfl
    rw [zero_mul] at hnorm
    exact hpos.ne' (mul_self_eq_zero.1 hnorm)
  refine ⟨product ps / energy, div_pos hpos henergy, fun p hp => ?_⟩
  have hp := pow_eq_zero_iff two_ne_zero |>.1 (total_eq_zero (fun p => sq_nonneg _) hzero p hp)
  rw [div_mul_eq_mul_div, eq_div_iff henergy.ne']
  linarith

theorem product_eq_of_proportional (h : Proportional ps) : product ps = energyNorm ps := by
  obtain ⟨t, ht, hall⟩ := h
  have hproduct : product ps = t * total (fun p => p.1 * p.1) ps :=
    total_of_multiple fun p hp => by rw [hall p hp]; ring
  have henergy : total (fun p => p.2 * p.2) ps = t * product ps :=
    total_of_multiple fun p hp => by rw [hall p hp]; ring
  have hnonneg : 0 ≤ product ps := by
    rw [hproduct]
    exact mul_nonneg ht.le (total_nonneg (fun p => mul_self_nonneg p.1) ps)
  have hsquare : total (fun p => p.1 * p.1) ps * total (fun p => p.2 * p.2) ps =
      product ps * product ps := by
    rw [henergy, hproduct]
    ring
  exact ((congrArg Real.sqrt hsquare).trans (Real.sqrt_mul_self hnonneg)).symm

/-- The largest score is that of samples in proportion, unless they are next to silent. -/
theorem scoreOf_eq_one_iff (ps : List (ℝ × ℝ)) :
    scoreOf ps = 1 ↔ 1e-10 < energyNorm ps ∧ Proportional ps := by
  rw [scoreOf_eq]
  split
  · next hloud =>
    have hpos : 0 < energyNorm ps := lt_trans (by norm_num) hloud
    rw [div_eq_one_iff_eq hpos.ne']
    exact ⟨fun h => ⟨hloud, proportional_of_product_eq hpos h⟩,
      fun h => product_eq_of_proportional h.2⟩
  · next hquiet =>
    refine ⟨fun h => absurd ?_ hquiet, fun h => absurd h.1 hquiet⟩
    calc (1e-10 : ℝ) < 1 := by norm_num
      _ = product ps := h.symm
      _ ≤ |product ps| := le_abs_self _
      _ ≤ energyNorm ps := abs_product_le ps

/-! ## The best lag -/

variable {a b : List ℝ} {maxLag k : Int}

theorem comparable_real (score : Int → ℝ) (ls : List Int) : Comparable score ls :=
  ⟨fun _ _ => rfl, fun _ _ _ _ => lt_asymm, fun _ _ _ _ _ _ hlt =>
    (lt_or_ge _ _).imp_right fun hle => lt_of_le_of_lt hle hlt⟩

/-- The best lag is a lag of the range, and no other scores higher. -/
theorem peak_spec (a b : List ℝ) (h : 0 ≤ maxLag) :
    ∃ lag, |lag| ≤ maxLag ∧ peak a b maxLag = ⟨scoreOf (facing a b lag), lag⟩ ∧
      ∀ l, |l| ≤ maxLag → scoreOf (facing a b l) ≤ scoreOf (facing a b lag) := by
  obtain ⟨lag, hlag, hpeak, hbest, -⟩ := peak_of_comparable h (comparable_real _ _)
  exact ⟨lag, hlag, hpeak, fun l hl => not_lt.1 (hbest l hl)⟩

theorem correlation_mem (a b : List ℝ) (h : 0 ≤ maxLag) :
    (peak a b maxLag).correlation ∈ Set.Icc (-1) 1 := by
  obtain ⟨lag, -, hpeak, -⟩ := peak_spec a b h
  rw [hpeak]
  exact abs_le.1 (abs_scoreOf_le _)

/-- A delayed signal that is not next to silent scores 1 at the lag where it faces itself. -/
theorem scoreOf_of_delayed (hdelayed : Delayed a b k)
    (hloud : 1e-10 < energyNorm (facing a b (-k))) : scoreOf (facing a b (-k)) = 1 :=
  (scoreOf_eq_one_iff _).2 ⟨hloud, 1, one_pos, fun _ hp => by rw [hdelayed.facing hp, one_mul]⟩

theorem correlation_of_delayed (hk : |k| ≤ maxLag) (hdelayed : Delayed a b k)
    (hloud : 1e-10 < energyNorm (facing a b (-k))) : (peak a b maxLag).correlation = 1 := by
  obtain ⟨lag, -, hpeak, hbest⟩ := peak_spec a b ((abs_nonneg k).trans hk)
  have hle := hbest (-k) (by rwa [abs_neg])
  rw [scoreOf_of_delayed hdelayed hloud] at hle
  rw [hpeak]
  exact le_antisymm (abs_le.1 (abs_scoreOf_le _)).2 hle

/-- The second signal is the first delayed by a lag of the range, at which it is not next to
silent, and at no other lag where the two are not next to silent are they in proportion. -/
structure ClearlyDelayed (a b : List ℝ) (maxLag k : Int) : Prop where
  within : |k| ≤ maxLag
  delayed : Delayed a b k
  loud : 1e-10 < energyNorm (facing a b (-k))
  only : ∀ lag, |lag| ≤ maxLag → lag ≠ -k → 1e-10 < energyNorm (facing a b lag) →
    ¬ Proportional (facing a b lag)

theorem ClearlyDelayed.lag (h : ClearlyDelayed a b maxLag k) : (peak a b maxLag).lag = -k := by
  obtain ⟨lag, hlag, hpeak, -⟩ := peak_spec a b ((abs_nonneg k).trans h.within)
  have hone := correlation_of_delayed h.within h.delayed h.loud
  rw [hpeak] at hone ⊢
  by_contra hne
  obtain ⟨hloud, hproportional⟩ := (scoreOf_eq_one_iff _).1 hone
  exact h.only lag hlag hne hloud hproportional

end Real

end Correlation

namespace Localizer

open Correlation

section Any
variable {α : Type} [Add α] [Sub α] [Mul α] [Div α] [Neg α] [LT α] [DecidableLT α]
  [OfNat α 0] [OfNat α 1] [OfScientific α] [Scalar α]

def delays (s : ArraySetup α) (channels : Quad (List α)) : Triple α where
  r1 := delayOf s (peaks s channels).r1
  r2 := delayOf s (peaks s channels).r2
  r3 := delayOf s (peaks s channels).r3

def shared (channels : Quad (List α)) (samples : Nat) : Quad (List α) :=
  channels.map (List.take (usable channels samples))

theorem localize_eq_direction (l : Localizer α) {channels : Quad (List α)} {samples : Nat}
    (h : usable channels samples ≠ 0) :
    l.localize channels samples =
      ((l.direction? (delays l.setup (shared channels samples))).1.map fun d =>
          estimate d (confidence (peaks l.setup (shared channels samples))),
        (l.direction? (delays l.setup (shared channels samples))).2) := by
  rw [localize, if_neg h]
  rfl

end Any

theorem confidence_mem {p : Triple (Peak ℝ)} (h1 : p.r1.correlation ∈ Set.Icc (-1) 1)
    (h2 : p.r2.correlation ∈ Set.Icc (-1) 1) (h3 : p.r3.correlation ∈ Set.Icc (-1) 1) :
    confidence p ∈ Set.Icc (-1) 1 := by
  have hthree : (3.0 : ℝ) = 3 := by norm_num
  simp only [Set.mem_Icc, confidence, hthree] at *
  constructor <;> linarith

theorem delayOf_eq (s : ArraySetup ℝ) {p : Peak ℝ} {k : Int} (h : p.lag = -k) :
    delayOf s p = k / s.sampleRate.toNat := by
  simp [delayOf, h, Scalar.ofInt]

/-- Every range of lags. A best lag scores between -1 and 1. If the second signal is the first
delayed by a lag of the range at which it is not next to silent, the score is 1; and if the two are
in proportion at no other lag where they are not next to silent, the best lag is the opposite of
that delay. A localizer with this range answers every frame; its confidence is between -1 and 1,
and the direction is found from delays that for such a channel are its delay in seconds. -/
theorem delays_of_correlation {maxLag : Int} (h : 0 ≤ maxLag) :
    (∀ a b : List ℝ, peak? a b maxLag = some (peak a b maxLag) ∧
      (peak a b maxLag).correlation ∈ Set.Icc (-1) 1 ∧
      ∀ k, |k| ≤ maxLag → Delayed a b k → 1e-10 < energyNorm (facing a b (-k)) →
        (peak a b maxLag).correlation = 1 ∧
        ((∀ lag, |lag| ≤ maxLag → lag ≠ -k → 1e-10 < energyNorm (facing a b lag) →
          ¬ Proportional (facing a b lag)) → (peak a b maxLag).lag = -k)) ∧
    ∀ l : Localizer ℝ, l.setup.maxLag = maxLag → ∀ channels samples,
      l.localize? channels samples = some (l.localize channels samples) ∧
      (∀ e, (l.localize channels samples).1 = some e → e.confidence ∈ Set.Icc (-1) 1) ∧
      (usable channels samples ≠ 0 → l.localize channels samples =
        ((l.direction? (delays l.setup (shared channels samples))).1.map fun d =>
            estimate d (confidence (peaks l.setup (shared channels samples))),
          (l.direction? (delays l.setup (shared channels samples))).2)) ∧
      (∀ k, ClearlyDelayed (shared channels samples).m0 (shared channels samples).m1 maxLag k →
        (delays l.setup (shared channels samples)).r1 = k / l.setup.sampleRate.toNat) ∧
      (∀ k, ClearlyDelayed (shared channels samples).m0 (shared channels samples).m2 maxLag k →
        (delays l.setup (shared channels samples)).r2 = k / l.setup.sampleRate.toNat) ∧
      (∀ k, ClearlyDelayed (shared channels samples).m0 (shared channels samples).m3 maxLag k →
        (delays l.setup (shared channels samples)).r3 = k / l.setup.sampleRate.toNat) := by
  have hfit : lagsFit maxLag = true := by
    have hlow : -maxLag ≤ maxInt32 := (neg_nonpos.2 h).trans (by decide)
    exact decide_eq_true hlow
  refine ⟨fun a b => ⟨if_pos hfit, correlation_mem a b h, fun k hk hdelayed hloud =>
    ⟨correlation_of_delayed hk hdelayed hloud, fun honly =>
      ClearlyDelayed.lag ⟨hk, hdelayed, hloud, honly⟩⟩⟩, ?_⟩
  rintro l rfl channels samples
  refine ⟨if_pos (.inr hfit), fun e he => ?_, l.localize_eq_direction,
    fun _ hk => delayOf_eq _ hk.lag, fun _ hk => delayOf_eq _ hk.lag,
    fun _ hk => delayOf_eq _ hk.lag⟩
  by_cases hu : usable channels samples = 0
  · rw [localize, if_pos hu] at he
    cases he
  · rw [l.localize_eq_direction hu] at he
    obtain ⟨d, -, rfl⟩ := Option.map_eq_some_iff.1 he
    exact confidence_mem (correlation_mem _ _ h) (correlation_mem _ _ h) (correlation_mem _ _ h)

/-- A click, heard by one channel a sample later than by the others. -/
def click : Quad (List ℝ) := ⟨[1, 0, 0], [0, 1, 0], [1, 0, 0], [1, 0, 0]⟩

/-- The setup of a square array that tries lags of one sample. -/
noncomputable def narrow : ArraySetup ℝ :=
  { ArraySetup.withLayout "square" (Layout.square 1) with maxLag := 1 }

theorem clearlyDelayed_click : ClearlyDelayed click.m0 click.m1 1 1 := by
  have hthere : facing click.m0 click.m1 (-1) = [(1, 1), (0, 0)] := rfl
  have hnone : facing click.m0 click.m1 0 = [(1, 0), (0, 1), (0, 0)] := rfl
  have hback : facing click.m0 click.m1 1 = [(0, 0), (0, 1)] := rfl
  refine ⟨by decide, ?_, ?_, ?_⟩
  · intro i j hij x y hx hy
    obtain rfl : j = i + 1 := by omega
    rcases i with _ | _ | _ | i <;> simp_all [click]
  · rw [hthere]
    norm_num [energyNorm, total, Scalar.sqrt]
  · intro lag hlag hne hloud
    obtain rfl | rfl : lag = 0 ∨ lag = 1 := by
      rw [abs_le] at hlag
      omega
    · rw [hnone]
      rintro ⟨t, ht, hall⟩
      have hfirst := hall (1, 0) (by simp)
      simp only [mul_one] at hfirst
      exact ht.ne hfirst
    · rw [hback] at hloud
      norm_num [energyNorm, total, Scalar.sqrt] at hloud

theorem delays_of_correlation_sample :
    (0 : Int) ≤ 1 ∧ peak click.m0 click.m1 1 = ⟨1, -1⟩ ∧ shared click 3 = click ∧
    (delays narrow click).r1 = 1 / 48000 := by
  obtain ⟨hsignals, hframes⟩ := delays_of_correlation (show (0 : Int) ≤ 1 by decide)
  have hclick := clearlyDelayed_click
  obtain ⟨-, -, hdelayed⟩ := hsignals click.m0 click.m1
  obtain ⟨hone, hlag⟩ := hdelayed 1 hclick.within hclick.delayed hclick.loud
  obtain ⟨-, -, -, hfirst, -⟩ := hframes ⟨narrow, 0, none⟩ rfl click 3
  have hrate : ((narrow.sampleRate.toNat : ℕ) : ℝ) = 48000 := by
    have hnat : narrow.sampleRate.toNat = 48000 := rfl
    rw [hnat]
    norm_num
  refine ⟨by decide, ?_, rfl, ?_⟩
  · have heta : peak click.m0 click.m1 1 =
        ⟨(peak click.m0 click.m1 1).correlation, (peak click.m0 click.m1 1).lag⟩ := rfl
    rw [heta, hone, hlag hclick.only]
  · have hdelay := hfirst 1 hclick
    rw [hrate, Int.cast_one] at hdelay
    exact hdelay

end Localizer

end MicStream
