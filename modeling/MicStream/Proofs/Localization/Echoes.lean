import MicStream.Proofs.Localization.Exchange
/-!
# A signal against itself

A signal that is compared with itself scores 1 at lag zero, over the reals. It
scores 1 at every other lag as well where what is left of it is a positive
multiple of itself and not next to silent: an echo. Constant signals, periodic
ones and those that die out evenly have echoes, and so has every signal whose
first and last sample have one sign, as only these two face each other in the
end. As the most negative of several lags wins, the search returns the longest
echo within its range, and zero only if there is none.

Results:
* `scoreOf_self_eq_one_iff`: where a signal scores 1 against itself.
* `peak_self_of_longest`: the longest echo is found.
* `peak_of_same`: the search, for every signal that is not next to silent.
-/
namespace MicStream.Correlation

/-! ## Facing oneself -/

section Self
variable {α : Type}

theorem facing_self (a : List α) (lag : Int) :
    facing a a lag = (a.drop lag.toNat).zip (a.drop (-lag).toNat) := by
  rw [facing, Nat.min_self, List.take_length, overlap_eq]

/-- A signal without its last samples faces itself without its first ones. -/
theorem facing_self_natCast (a : List α) (d : Nat) :
    facing a a (-(d : Int)) = (a.take (a.length - d)).zip (a.drop d) := by
  have hshorter : min a.length (a.drop d).length = a.length - d := by
    rw [List.length_drop]
    omega
  rw [facing_self, neg_neg, Int.toNat_neg_natCast, Int.toNat_natCast, List.drop_zero,
    List.zip_eq_zip_take_min, hshorter, ← List.length_drop, List.take_length]

end Self

/-! ## Echoes -/

def energy (a : List ℝ) : ℝ := (a.map fun x => x * x).sum

/-- Without its first `d` samples a signal is a positive multiple of what it is without its last
ones, and neither is next to silent. -/
structure Echoes (a : List ℝ) (d : Nat) : Prop where
  multiple : ∃ t > 0, a.drop d = (a.take (a.length - d)).map (t * ·)
  loud : 1e-10 < √(energy (a.take (a.length - d)) * energy (a.drop d))

section Scores
variable {ps : List (ℝ × ℝ)} {a xs ys : List ℝ} {d : Nat} {maxLag : Int}

theorem energyNorm_zip (h : xs.length = ys.length) :
    energyNorm (xs.zip ys) = √(energy xs * energy ys) := by
  have hfirst : total (fun p => p.1 * p.1) (xs.zip ys) = energy xs := by
    conv_rhs => rw [energy, ← List.map_fst_zip h.le, List.map_map]
    exact total_eq_sum _ _
  have hsecond : total (fun p => p.2 * p.2) (xs.zip ys) = energy ys := by
    conv_rhs => rw [energy, ← List.map_snd_zip h.ge, List.map_map]
    exact total_eq_sum _ _
  rw [energyNorm, hfirst, hsecond]
  rfl

theorem proportional_zip_iff (h : xs.length = ys.length) :
    Proportional (xs.zip ys) ↔ ∃ t > 0, ys = xs.map (t * ·) := by
  refine exists_congr fun t => and_congr_right fun _ => ?_
  calc (∀ p ∈ xs.zip ys, p.2 = t * p.1)
      ↔ (xs.zip ys).map Prod.snd = (xs.zip ys).map fun p => t * p.1 := List.map_inj_left.symm
    _ ↔ (xs.zip ys).map Prod.snd = ((xs.zip ys).map Prod.fst).map (t * ·) := by
      rw [List.map_map]
      rfl
    _ ↔ ys = xs.map (t * ·) := by rw [List.map_fst_zip h.le, List.map_snd_zip h.ge]

/-- A signal scores 1 against itself where it has an echo. -/
theorem scoreOf_self_eq_one_iff (a : List ℝ) (d : Nat) :
    scoreOf (facing a a (-(d : Int))) = 1 ↔ Echoes a d := by
  have hlength : (a.take (a.length - d)).length = (a.drop d).length := by
    rw [List.length_take, List.length_drop]
    omega
  rw [scoreOf_eq_one_iff, facing_self_natCast, energyNorm_zip hlength, proportional_zip_iff hlength]
  exact ⟨fun h => ⟨h.2, h.1⟩, fun h => ⟨h.loud, h.multiple⟩⟩

theorem echoes_zero (hloud : 1e-10 < energy a) : Echoes a 0 := by
  have henergy : 0 ≤ energy a := le_trans (by norm_num) hloud.le
  have htake : a.take (a.length - 0) = a := List.take_length
  refine ⟨⟨1, one_pos, ?_⟩, ?_⟩
  · simp
  · rwa [htake, List.drop_zero, Real.sqrt_mul_self henergy]

/-! ## The longest echo -/

/-- The search returns the longest echo within its range. -/
theorem peak_self_of_longest (hd : (d : Int) ≤ maxLag) (hecho : Echoes a d)
    (hlongest : ∀ e : Nat, (e : Int) ≤ maxLag → Echoes a e → e ≤ d) :
    peak? a a maxLag = some ⟨1, -d⟩ := by
  have hnonneg : 0 ≤ maxLag := le_trans (Int.natCast_nonneg d) hd
  have hd' : |(-(d : Int))| ≤ maxLag := by rwa [abs_neg, Nat.abs_cast]
  have hone := (scoreOf_self_eq_one_iff a d).2 hecho
  obtain ⟨lag, hlag, hpeak, hbest, hleast⟩ :=
    peak_of_comparable (a := a) (b := a) hnonneg (comparable_real _ _)
  have hscore : scoreOf (facing a a lag) = 1 := by
    have hge := not_lt.1 (hbest _ hd')
    rw [hone] at hge
    exact le_antisymm (abs_le.1 (abs_scoreOf_le _)).2 hge
  -- the best lag is an echo one way or the other, so it is no longer than the longest
  have hshort : lag.natAbs ≤ d := by
    refine hlongest _ (by rwa [Int.natCast_natAbs]) ((scoreOf_self_eq_one_iff a _).1 ?_)
    rcases Int.natAbs_eq lag with h | h
    · rw [facing_swap, scoreOf_swap mul_comm, ← h, hscore]
    · rw [← h, hscore]
  have hfirst : ¬ -(d : Int) < lag := by
    intro hless
    have hlt := hleast _ hd' hless
    rw [hone, hscore] at hlt
    exact lt_irrefl _ hlt
  obtain rfl : lag = -d := by omega
  rw [peak?, if_pos (lagsFit_of_nonneg hnonneg), hpeak, hone]

theorem exists_longest (hnonneg : 0 ≤ maxLag) (hloud : 1e-10 < energy a) :
    ∃ d : Nat, (d : Int) ≤ maxLag ∧ Echoes a d ∧
      ∀ e : Nat, (e : Int) ≤ maxLag → Echoes a e → e ≤ d := by
  classical
  have hwithin : ∀ {e : Nat}, (e : Int) ≤ maxLag ↔ e ≤ maxLag.toNat := by
    intro e
    omega
  refine ⟨Nat.findGreatest (Echoes a) maxLag.toNat, hwithin.2 (Nat.findGreatest_le _),
    Nat.findGreatest_spec (Nat.zero_le _) (echoes_zero hloud), fun e he hecho =>
    Nat.le_findGreatest (hwithin.1 he) hecho⟩

/-- Every signal that is not next to silent, against itself, and every range of lags. The best
correlation is 1. The best lag is the opposite of the longest echo of the signal within the range,
and so it is zero exactly if there is no echo but the signal itself. -/
theorem peak_of_same (a : List ℝ) {maxLag : Int} (h : 0 ≤ maxLag) (hloud : 1e-10 < energy a) :
    ∃ d : Nat, peak? a a maxLag = some ⟨1, -d⟩ ∧
      ((d : Int) ≤ maxLag ∧ Echoes a d ∧ ∀ e : Nat, (e : Int) ≤ maxLag → Echoes a e → e ≤ d) ∧
      (d = 0 ↔ ∀ e : Nat, 0 < e → (e : Int) ≤ maxLag → ¬ Echoes a e) := by
  obtain ⟨d, hd, hecho, hlongest⟩ := exists_longest h hloud
  refine ⟨d, peak_self_of_longest hd hecho hlongest, ⟨hd, hecho, hlongest⟩, ?_, fun hnone => ?_⟩
  · rintro rfl e hpos he hother
    exact absurd (hlongest e he hother) (by omega)
  · by_contra hne
    exact hnone d (Nat.pos_of_ne_zero hne) hd hecho

/-- A geometric signal: the first and the last of its samples face each other in the end. -/
theorem peak_of_same_sample :
    (0 : Int) ≤ 5 ∧ 1e-10 < energy [1, 2, 4] ∧ peak? [1, 2, 4] [1, 2, 4] 5 = some ⟨(1 : ℝ), -2⟩ := by
  have hloud : (1e-10 : ℝ) < energy [1, 2, 4] := by norm_num [energy]
  have hecho : Echoes [1, 2, 4] 2 := by
    refine ⟨⟨4, by norm_num, by norm_num⟩, (Real.lt_sqrt (by norm_num)).2 ?_⟩
    norm_num [energy]
  obtain ⟨d, hpeak, ⟨hd, hlast, hlongest⟩, -⟩ :=
    peak_of_same [1, 2, 4] (show (0 : Int) ≤ 5 by decide) hloud
  have htwo : d = 2 := by
    refine le_antisymm (le_of_not_gt fun hlong => ?_) (hlongest 2 (by decide) hecho)
    have hnothing := hlast.loud
    rw [List.drop_eq_nil_of_le (show ([1, 2, 4] : List ℝ).length ≤ d from hlong)] at hnothing
    norm_num [energy] at hnothing
  subst htwo
  exact ⟨by decide, hloud, hpeak⟩

/-- Two equal samples are found one sample early: the last then faces the first. -/
theorem peak_of_same_not_zero : ¬ ∀ (a : List ℝ) (maxLag : Int), 0 ≤ maxLag → 1e-10 < energy a →
    peak? a a maxLag = some ⟨1, 0⟩ := by
  intro hclaim
  have hloud : (1e-10 : ℝ) < energy [1, 1] := by norm_num [energy]
  have hecho : Echoes [1, 1] 1 := by
    refine ⟨⟨1, one_pos, by norm_num⟩, ?_⟩
    norm_num [energy]
  have hfound := peak_self_of_longest (show ((1 : Nat) : Int) ≤ 1 from le_rfl) hecho
    fun e he _ => Int.ofNat_le.1 he
  rw [hclaim [1, 1] 1 (by decide) hloud] at hfound
  cases hfound

end Scores

end MicStream.Correlation
