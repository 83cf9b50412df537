import Mathlib.Algebra.BigOperators.Fin
import Mathlib.Data.List.FinRange
import MicStream.Proofs.Localization.Correlating
import MicStream.Proofs.Localization.Crossing
import MicStream.Proofs.Localization.Smoothing
/-!
# Arrays that are numbered or placed otherwise

Nothing in a direction depends on which of microphones 1 to 3 is which, or on
where the origin is. The equations of an array are made of offsets from the
reference, which moving the array leaves as they are. If the microphones are
numbered otherwise the equations stand in another order, and the solvers add
up over all three of them. So an array that is moved, and numbered otherwise
together with its channels, gives the estimates of the array itself.

Results:
* `toList_reorder_perm`, `sum_reorder`: what does not depend on an order.
* `constraints_moved`: the equations of an array that is moved.
* `isPlanar_moved`, `span_moved`, `solve_moved`: the pieces of a localizer.
* `localize_moved`: one frame, and the state after it.
* `estimates_of_moved`: every array and every sequence of frames.
-/
namespace MicStream

/-! ## Other numbers for microphones 1 to 3 -/

namespace Quad

variable {β γ : Type} (σ : Equiv.Perm (Fin 3)) (q : Quad β)

def others : Fin 3 → β := ![q.m1, q.m2, q.m3]

def reorder : Quad β := ⟨q.m0, q.others (σ 0), q.others (σ 1), q.others (σ 2)⟩

theorem others_reorder (i : Fin 3) : (q.reorder σ).others i = q.others (σ i) := by
  fin_cases i <;> rfl

theorem others_map (f : β → γ) (i : Fin 3) : (q.map f).others i = f (q.others i) := by
  fin_cases i <;> rfl

theorem map_reorder (f : β → γ) : (q.reorder σ).map f = (q.map f).reorder σ := by
  simp only [reorder, others_map]
  rfl

theorem toList_eq : q.toList = q.m0 :: List.ofFn q.others := by
  simp [toList, others]

theorem toList_reorder_perm : (q.reorder σ).toList.Perm q.toList := by
  have hothers : (q.reorder σ).others = q.others ∘ σ := funext fun i => q.others_reorder σ i
  rw [toList_eq, toList_eq, hothers]
  exact (σ.ofFn_comp_perm q.others).cons _

end Quad

namespace Triple

variable {β γ : Type} (σ : Equiv.Perm (Fin 3)) (t : Triple β)

def entry : Fin 3 → β := ![t.r1, t.r2, t.r3]

def map (f : β → γ) : Triple γ := ⟨f t.r1, f t.r2, f t.r3⟩

def reorder : Triple β := ⟨t.entry (σ 0), t.entry (σ 1), t.entry (σ 2)⟩

theorem entry_reorder (i : Fin 3) : (t.reorder σ).entry i = t.entry (σ i) := by
  fin_cases i <;> rfl

theorem entry_map (f : β → γ) (i : Fin 3) : (t.map f).entry i = f (t.entry i) := by
  fin_cases i <;> rfl

theorem map_reorder (f : β → γ) : (t.reorder σ).map f = (t.map f).reorder σ := by
  simp only [reorder, entry_map]
  rfl

theorem sum_reorder (f : β → ℝ) :
    f (t.reorder σ).r1 + f (t.reorder σ).r2 + f (t.reorder σ).r3 = f t.r1 + f t.r2 + f t.r3 := by
  have hsum : ∀ u : Triple β, f u.r1 + f u.r2 + f u.r3 = ∑ i, f (u.entry i) := by
    intro u
    rw [Fin.sum_univ_three]
    rfl
  simp only [hsum, entry_reorder]
  exact Equiv.sum_comp σ fun i => f (t.entry i)

end Triple

/-! ## The pieces of a localizer -/

section Pieces
variable (σ : Equiv.Perm (Fin 3)) (v : Vec3 ℝ)

/-- All microphones are moved by one vector, and 1 to 3 get new numbers. -/
def Layout.moved (p : Layout ℝ) : Layout ℝ := (p.reorder σ).map (· + v)

def ArraySetup.moved (s : ArraySetup ℝ) : ArraySetup ℝ := { s with layout := s.layout.moved σ v }

/-- The localizer of the moved array, with the same smoothing state. -/
def Localizer.moved (l : Localizer ℝ) : Localizer ℝ := { l with setup := l.setup.moved σ v }

/-- A frame whose channels have the new numbers of their microphones. -/
def Hearing.reorder (f : Hearing ℝ) : Hearing ℝ := { f with channels := f.channels.reorder σ }

theorem Vec3.add_sub_add (a b : Vec3 ℝ) : a + v - (b + v) = a - b := by
  change (⟨a.x + v.x - (b.x + v.x), a.y + v.y - (b.y + v.y), a.z + v.z - (b.z + v.z)⟩ : Vec3 ℝ) = _
  simp only [add_sub_add_right_eq_sub, Vec3.sub_def]

namespace Solver

variable (p : Layout ℝ) (c : ℝ) (delays : Triple ℝ) (cs : Triple (Constraint ℝ))

theorem sum_reorder (f : Constraint ℝ → ℝ) : sum (cs.reorder σ) f = sum cs f := by
  simp only [sum, zero_add, Triple.sum_reorder]

theorem planar_reorder : planar (cs.reorder σ) = planar cs := by
  simp only [planar, sum_reorder]

theorem spatial_reorder : spatial (cs.reorder σ) = spatial cs := by
  simp only [spatial, sum_reorder]

theorem entry_constraints (i : Fin 3) :
    (constraints p c delays).entry i = ⟨p.others i - p.m0, delays.entry i * c⟩ := by
  fin_cases i <;> rfl

/-- The equations of the moved array are those of the array, in the new order. -/
theorem constraints_moved :
    constraints (p.moved σ v) c (delays.reorder σ) = (constraints p c delays).reorder σ := by
  simp only [constraints, Layout.moved, Quad.map, Quad.reorder, Vec3.add_sub_add, Triple.reorder,
    ← entry_constraints]

end Solver

namespace Layout

variable (p : Layout ℝ)

/-- The volume that the microphones span is the same, though not its sign. -/
theorem abs_tripleProduct_moved : |(p.moved σ v).tripleProduct| = |p.tripleProduct| := by
  rw [← sq_eq_sq_iff_abs_eq_abs]
  -- the square is the determinant of the normal equations, whatever the delays are
  let delays : Triple ℝ := ⟨0, 0, 0⟩
  rw [← Solver.det_normal_offsets _ 1 (delays.reorder σ), ← Solver.det_normal_offsets p 1 delays,
    Solver.constraints_moved, Solver.normal_offsets, Solver.normal_offsets]
  simp only [Solver.sum_reorder]

theorem isPlanar_moved : (p.moved σ v).isPlanar = p.isPlanar := by
  simp only [isPlanar, Scalar.abs, abs_tripleProduct_moved]

theorem toList_moved_perm : (p.moved σ v).toList.Perm (p.toList.map (· + v)) :=
  (p.toList_reorder_perm σ).map (· + v)

theorem span_moved : (p.moved σ v).span = p.span := by
  refine eq_of_forall_ge_iff fun r => ?_
  simp only [span_le_iff, (p.toList_moved_perm σ v).mem_iff, List.forall_mem_map, Vec3.add_sub_add]

end Layout

end Pieces

/-! ## Frames -/

namespace Localizer

open Solver

section Frames
variable (σ : Equiv.Perm (Fin 3)) (v : Vec3 ℝ) (s : ArraySetup ℝ) (l : Localizer ℝ)

theorem usable_reorder (channels : Quad (List ℝ)) (samples : Nat) :
    usable (channels.reorder σ) samples = usable channels samples := by
  have hmin : RightCommutative fun (n : Nat) (c : List ℝ) => min n c.length :=
    ⟨fun n c d => by rw [min_right_comm]⟩
  exact (channels.toList_reorder_perm σ).foldl_eq samples

theorem entry_peaks (channels : Quad (List ℝ)) (i : Fin 3) :
    (peaks s channels).entry i = Correlation.peak channels.m0 (channels.others i) s.maxLag := by
  fin_cases i <;> rfl

theorem peaks_moved (channels : Quad (List ℝ)) :
    peaks (s.moved σ v) (channels.reorder σ) = (peaks s channels).reorder σ := by
  simp only [Triple.reorder, entry_peaks]
  rfl

theorem confidence_reorder (p : Triple (Peak ℝ)) : confidence (p.reorder σ) = confidence p := by
  simp only [confidence, zero_add, p.sum_reorder σ Peak.correlation]

theorem delays_moved (channels : Quad (List ℝ)) :
    delays (s.moved σ v) (channels.reorder σ) = (delays s channels).reorder σ := by
  have hmap : ∀ q, delays s q = (peaks s q).map (delayOf s) := fun _ => rfl
  have hmoved : delays (s.moved σ v) (channels.reorder σ) =
      (peaks (s.moved σ v) (channels.reorder σ)).map (delayOf s) := rfl
  rw [hmoved, peaks_moved, Triple.map_reorder, hmap]

theorem solve_moved (delays : Triple ℝ) :
    solve (s.moved σ v) (delays.reorder σ) = solve s delays := by
  have hplanar : (s.moved σ v).isPlanar = s.isPlanar := s.layout.isPlanar_moved σ v
  have hconstraints : constraints (s.moved σ v).layout (s.moved σ v).soundSpeed (delays.reorder σ) =
      (constraints s.layout s.soundSpeed delays).reorder σ := constraints_moved σ v _ _ _
  simp only [solve, hplanar, hconstraints, planar_reorder, spatial_reorder]

theorem spanLag_moved : spanLag (s.moved σ v) = spanLag s := by
  simp only [spanLag, ArraySetup.moved, Layout.span_moved]

theorem shared_reorder (channels : Quad (List ℝ)) (samples : Nat) :
    shared (channels.reorder σ) samples = (shared channels samples).reorder σ := by
  rw [shared, usable_reorder, Quad.map_reorder, shared]

theorem heard_eq (f : Hearing ℝ) :
    heard? s f = if usable f.channels f.samples = 0 then none else
      (solve s (delays s (shared f.channels f.samples))).map fun w =>
        (w.normalize, confidence (peaks s (shared f.channels f.samples))) := rfl

theorem heard_moved (f : Hearing ℝ) : heard? (s.moved σ v) (f.reorder σ) = heard? s f := by
  simp only [heard_eq, Hearing.reorder, usable_reorder, shared_reorder, delays_moved, solve_moved,
    peaks_moved, confidence_reorder]

theorem finding_moved (f : Hearing ℝ) : (l.moved σ v).finding (f.reorder σ) = l.finding f := by
  simp only [finding, moved, heard_moved]
  rfl

theorem next_moved (f : Hearing ℝ) : (l.moved σ v).next (f.reorder σ) = (l.next f).moved σ v := by
  simp only [next, moved, heard_moved]
  cases heard? l.setup f <;> rfl

/-- One frame: the same estimate or none, and the same smoothing state after it. -/
theorem localize_moved (channels : Quad (List ℝ)) (samples : Nat) :
    (l.moved σ v).localize (channels.reorder σ) samples =
      ((l.localize channels samples).1, (l.localize channels samples).2.moved σ v) := by
  have hmoved := localize_eq (l.moved σ v) (Hearing.reorder σ ⟨channels, samples⟩)
  rw [finding_moved, next_moved] at hmoved
  have hframe := localize_eq l ⟨channels, samples⟩
  rw [hframe]
  exact hmoved

theorem estimates_moved : ∀ (fs : List (Hearing ℝ)) (l : Localizer ℝ),
    (l.moved σ v).estimates (fs.map (Hearing.reorder σ)) = l.estimates fs ∧
      (l.moved σ v).after (fs.map (Hearing.reorder σ)) = (l.after fs).moved σ v
  | [], _ => ⟨rfl, rfl⟩
  | f :: fs, l => by
    obtain ⟨hestimates, hafter⟩ := estimates_moved fs (l.next f)
    rw [List.map_cons, after_cons, after_cons, next_moved, hafter, estimates, estimates,
      localize_eq, localize_eq, next_moved, finding_moved, hestimates]
    exact ⟨rfl, rfl⟩

theorem localize?_moved (channels : Quad (List ℝ)) (samples : Nat) :
    (l.moved σ v).localize? (channels.reorder σ) samples =
      (l.localize? channels samples).map fun r => (r.1, r.2.moved σ v) := by
  have hlags : (l.moved σ v).setup.maxLag = l.setup.maxLag := rfl
  rw [localize?, localize?, usable_reorder, hlags, localize_moved]
  split <;> rfl

theorem ofSetup_moved : ofSetup? (s.moved σ v) = (ofSetup? s).map (moved σ v) := by
  rw [ofSetup?, ofSetup?, spanLag_moved]
  split <;> rfl

end Frames

/-- Every array and every localizer, in exact arithmetic. Say that all microphones are moved by one
vector, and that 1 to 3 get new numbers, as do their channels. The array is planar or not as it was,
and so solved for by the same solver, with the same answer of both; there is a localizer if there
was, and it notes the same delay. Every frame that can be searched gives the same estimate or none,
and leaves the same smoothing state; so any sequence of frames does. -/
theorem estimates_of_moved (σ : Equiv.Perm (Fin 3)) (v : Vec3 ℝ) :
    (∀ s : ArraySetup ℝ, (s.moved σ v).isPlanar = s.isPlanar ∧
      (∀ c delays,
        planar (constraints (s.moved σ v).layout c (delays.reorder σ)) =
          planar (constraints s.layout c delays) ∧
        spatial (constraints (s.moved σ v).layout c (delays.reorder σ)) =
          spatial (constraints s.layout c delays)) ∧
      spanLag (s.moved σ v) = spanLag s ∧
      ofSetup? (s.moved σ v) = (ofSetup? s).map (moved σ v)) ∧
    ∀ l : Localizer ℝ,
      (∀ channels samples, (l.moved σ v).localize? (channels.reorder σ) samples =
        (l.localize? channels samples).map fun r => (r.1, r.2.moved σ v)) ∧
      ∀ fs : List (Hearing ℝ),
        (l.moved σ v).estimates (fs.map (Hearing.reorder σ)) = l.estimates fs ∧
        (l.moved σ v).after (fs.map (Hearing.reorder σ)) = (l.after fs).moved σ v := by
  refine ⟨fun s => ⟨s.layout.isPlanar_moved σ v, fun c delays => ?_, spanLag_moved σ v s,
    ofSetup_moved σ v s⟩, fun l => ⟨localize?_moved σ v l, fun fs => estimates_moved σ v fs l⟩⟩
  have hconstraints : constraints (s.moved σ v).layout c (delays.reorder σ) =
      (constraints s.layout c delays).reorder σ := constraints_moved σ v _ _ _
  rw [hconstraints]
  exact ⟨planar_reorder σ _, spatial_reorder σ _⟩

end Localizer

end MicStream
