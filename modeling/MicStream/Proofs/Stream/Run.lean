import MicStream.Proofs.Stream.Threads
/-!
# Runs of a streamer

A run is a list of labels, each enabled in its turn. Seen from one session a
run is simple: the session is set up once, every step leaves its number and
its surroundings alone (`Within`), and it ends when the owner reclaims it.
Nothing is told under the number of a session before it is set up, so what is
told under that number is what the session told.

Results:
* `steps_induction`: what every step preserves holds at the end of a run.
* `numbered_of_run`: sessions are numbered in the order in which they begin.
* `SessionStep.within`: what a step in a session leaves alone.
* `SessionRun.induction`: what every step in a session preserves holds at the
  end of each of its runs.
* `SessionRun.launching`: a thread that is still to be spawned has not begun.
-/
namespace MicStream

def Notice.packet? (n : Nat) : Notice → Option Packet
  | .told m (.packet p) => if m = n then some p else none
  | _ => none

def Notice.sighting? (n : Nat) : Notice → Option Sighting
  | .told m (.sighting v) => if m = n then some v else none
  | _ => none

namespace State

def packets (s : State) (n : Nat) : List Packet := (s.trace.filterMap (Notice.packet? n)).reverse

def sightings (s : State) (n : Nat) : List Sighting :=
  (s.trace.filterMap (Notice.sighting? n)).reverse

/-- What is told when there is something to tell: nothing, if nobody listens. -/
def heard {α : Type} (s : State) (as : List α) : List α := if s.listening then as else []

/-- The frame that a step takes out of the queue of a consumer, if it takes one. -/
def taking (s : State) : Consumer → Label → List Frame
  | .encoder, .encoder =>
    match s.session with
    | none => []
    | some x =>
      if x.encoder.stage = .waiting then
        (x.queues.encode.receive.1.toOption.map SharedFrame.frame).toList
      else []
  | .localizer, .localizer =>
    match s.session.bind Session.localizer, s.session with
    | some l, some x =>
      if l.stage = .waiting then
        (x.queues.localize.receive.1.toOption.map SharedFrame.frame).toList
      else []
    | _, _ => []
  | _, _ => []

def taken (c : Consumer) : State → List Label → List Frame
  | _, [] => []
  | s, l :: ls => s.taking c l ++ ((s.step l).map fun s => taken c s ls).getD []

/-! ## Runs -/

theorem steps_append (s : State) (ls ls' : List Label) :
    s.steps (ls ++ ls') = (s.steps ls).bind fun t => t.steps ls' := by
  induction ls generalizing s with
  | nil => rfl
  | cons l ls ih =>
    simp only [List.cons_append, steps]
    cases s.step l with
    | none => rfl
    | some t => exact ih t

theorem steps_cons {s u : State} {l : Label} {ls : List Label} :
    s.steps (l :: ls) = some u ↔ ∃ t, s.step l = some t ∧ t.steps ls = some u :=
  Option.bind_eq_some_iff

theorem steps_concat {s u : State} {ls : List Label} {l : Label} :
    s.steps (ls ++ [l]) = some u ↔ ∃ t, s.steps ls = some t ∧ t.step l = some u := by
  rw [steps_append, Option.bind_eq_some_iff]
  simp [steps]

theorem taken_concat (c : Consumer) {s t : State} {ls : List Label} (l : Label)
    (h : s.steps ls = some t) : s.taken c (ls ++ [l]) = s.taken c ls ++ t.taking c l := by
  induction ls generalizing s with
  | nil =>
    obtain rfl : s = t := by simpa [steps] using h
    simp only [List.nil_append, taken]
    cases s.step l <;> simp
  | cons a ls ih =>
    simp only [steps, Option.bind_eq_some_iff] at h
    obtain ⟨u, hu, h⟩ := h
    simp only [List.cons_append, taken, hu, Option.map_some, Option.getD_some, ih h,
      List.append_assoc]

/-- What holds at the start of a run and is preserved by each of its steps holds at its end. -/
theorem steps_induction {P : List Label → State → Prop} {s : State} (h0 : P [] s)
    (hs : ∀ ls l t u, s.steps ls = some t → t.step l = some u → P ls t → P (ls ++ [l]) u) :
    ∀ (ls : List Label) {t : State}, s.steps ls = some t → P ls t := by
  intro ls
  induction hn : ls.length generalizing ls with
  | zero =>
    intro t h
    obtain rfl := List.eq_nil_of_length_eq_zero hn
    obtain rfl : s = t := by simpa [steps] using h
    exact h0
  | succ n ih =>
    intro t h
    obtain ⟨ls', l, rfl⟩ : ∃ ls' l, ls = ls' ++ [l] :=
      ⟨_, _, (List.dropLast_concat_getLast (by rintro rfl; simp at hn)).symm⟩
    obtain ⟨u, hu, hl⟩ := steps_concat.1 h
    exact hs ls' l u t hu hl (ih ls' (by simpa using hn) hu)

/-! ## What is told -/

section Told
variable {s : State} {n : Nat} {ns : List Notice}

theorem filterMap_packet? (h : ∀ m e, .told m e ∈ ns → m ≠ n) :
    ns.filterMap (Notice.packet? n) = [] := by
  rw [List.filterMap_eq_nil_iff]
  rintro (⟨m, _ | p | _⟩ | a) hm
  · rfl
  · exact if_neg (h m _ hm)
  · rfl
  · rfl

theorem filterMap_sighting? (h : ∀ m e, .told m e ∈ ns → m ≠ n) :
    ns.filterMap (Notice.sighting? n) = [] := by
  rw [List.filterMap_eq_nil_iff]
  rintro (⟨m, _ | _ | v⟩ | a) hm
  · rfl
  · rfl
  · exact if_neg (h m _ hm)
  · rfl

@[simp] theorem packets_tell_control (m : Nat) (c : Control) :
    (s.tell m (.control c)).packets n = s.packets n := by
  unfold tell; split <;> rfl

@[simp] theorem sightings_tell_control (m : Nat) (c : Control) :
    (s.tell m (.control c)).sightings n = s.sightings n := by
  unfold tell; split <;> rfl

@[simp] theorem packets_tell_sighting (m : Nat) (v : Sighting) :
    (s.tell m (.sighting v)).packets n = s.packets n := by
  unfold tell; split <;> rfl

@[simp] theorem sightings_tell_packet (m : Nat) (p : Packet) :
    (s.tell m (.packet p)).sightings n = s.sightings n := by
  unfold tell; split <;> rfl

section Heard
variable {α β : Type} {s' : State}

@[simp] theorem heard_nil : s.heard ([] : List α) = [] := by simp [heard]

theorem heard_of_listening (h : s.listening = true) (as : List α) : s.heard as = as := if_pos h

theorem heard_of_silence (h : s.listening = false) (as : List α) : s.heard as = [] := by
  simp [heard, h]

theorem heard_congr (h : s'.listening = s.listening) (as : List α) : s'.heard as = s.heard as := by
  rw [heard, heard, h]

theorem heard_append (as bs : List α) : s.heard (as ++ bs) = s.heard as ++ s.heard bs := by
  unfold heard; split <;> simp

theorem map_heard (f : α → β) (as : List α) : (s.heard as).map f = s.heard (as.map f) := by
  unfold heard; split <;> simp

theorem heard_mono {as bs : List α} (h : as <+: bs) : s.heard as <+: s.heard bs := by
  obtain ⟨cs, rfl⟩ := h
  rw [heard_append]
  exact List.prefix_append _ _

end Heard

theorem packets_tell_packet (p : Packet) :
    (s.tell n (.packet p)).packets n = s.packets n ++ s.heard [p] := by
  unfold tell heard
  split
  · simp [packets, Notice.packet?]
  · simp

theorem packets_tellAny_packet (p : Option Packet) :
    (s.tellAny n .packet p).packets n = s.packets n ++ s.heard p.toList := by
  cases p with
  | none => simp [tellAny]
  | some p => exact packets_tell_packet p

theorem sightings_tell_sighting (v : Sighting) :
    (s.tell n (.sighting v)).sightings n = s.sightings n ++ s.heard [v] := by
  unfold tell heard
  split
  · simp [sightings, Notice.sighting?]
  · simp

theorem sightings_tellAny_sighting (v : Option Sighting) :
    (s.tellAny n .sighting v).sightings n = s.sightings n ++ s.heard v.toList := by
  cases v with
  | none => simp [tellAny]
  | some v => exact sightings_tell_sighting v

/-! Telling changes the trace alone. -/

section Frame
variable {α : Type} (m : Nat) (e : Event) (event : α → Event) (a : Option α)

@[simp] theorem tell_session : (s.tell m e).session = s.session := by
  unfold tell; split <;> rfl

@[simp] theorem tell_owner : (s.tell m e).owner = s.owner := by
  unfold tell; split <;> rfl

@[simp] theorem tell_running : (s.tell m e).running = s.running := by
  unfold tell; split <;> rfl

@[simp] theorem tell_begun : (s.tell m e).begun = s.begun := by
  unfold tell; split <;> rfl

@[simp] theorem tell_listening : (s.tell m e).listening = s.listening := by
  unfold tell; split <;> rfl

@[simp] theorem tell_rig : (s.tell m e).rig = s.rig := by
  unfold tell; split <;> rfl

@[simp] theorem tellAny_session : (s.tellAny m event a).session = s.session := by
  cases a <;> simp [tellAny]

@[simp] theorem tellAny_owner : (s.tellAny m event a).owner = s.owner := by
  cases a <;> simp [tellAny]

@[simp] theorem tellAny_running : (s.tellAny m event a).running = s.running := by
  cases a <;> simp [tellAny]

@[simp] theorem tellAny_listening : (s.tellAny m event a).listening = s.listening := by
  cases a <;> simp [tellAny]

@[simp] theorem tellAny_rig : (s.tellAny m event a).rig = s.rig := by
  cases a <;> simp [tellAny]

end Frame

theorem packets_eq_nil (h : ∀ m e, .told m e ∈ s.trace → m ≠ n) : s.packets n = [] := by
  rw [packets, filterMap_packet? h, List.reverse_nil]

theorem sightings_eq_nil (h : ∀ m e, .told m e ∈ s.trace → m ≠ n) : s.sightings n = [] := by
  rw [sightings, filterMap_sighting? h, List.reverse_nil]

theorem Tells.tell {P : Nat → Prop} {s' : State} (h : Tells P s s') {m : Nat} (hm : P m)
    (e : Event) : Tells P s (s'.tell m e) := by
  obtain ⟨new, ht, hn⟩ := h
  unfold State.tell
  split
  · refine ⟨.told m e :: new, congrArg _ ht, fun k e' hk => ?_⟩
    rcases List.mem_cons.1 hk with hk | hk
    · cases hk; exact hm
    · exact hn k e' hk
  · exact ⟨new, ht, hn⟩

theorem Tells.mem {P : Nat → Prop} {s' : State} (h : Tells P s s') {m : Nat} {e : Event}
    (hm : .told m e ∈ s'.trace) : .told m e ∈ s.trace ∨ P m := by
  obtain ⟨new, ht, hn⟩ := h
  rw [ht] at hm
  rcases List.mem_append.1 hm with hm | hm
  · exact .inr (hn m e hm)
  · exact .inl hm

/-- Of other sessions nothing is told. -/
theorem Tells.unchanged {P : Nat → Prop} {s' : State} (h : Tells P s s') (hn : ¬ P n) :
    s'.packets n = s.packets n ∧ s'.sightings n = s.sightings n := by
  obtain ⟨new, ht, hnew⟩ := h
  have hne : ∀ m e, .told m e ∈ new → m ≠ n := fun m e hm he => hn (he ▸ hnew m e hm)
  unfold packets sightings
  rw [ht, List.filterMap_append, List.filterMap_append, filterMap_packet? hne,
    filterMap_sighting? hne]
  exact ⟨rfl, rfl⟩

end Told

/-! ## Steps within a session -/

/-- A step within session `x`, which is `y` after it: what no such step changes. -/
structure Within (s : State) (x : Session) (s' : State) (y : Session) : Prop where
  session : s'.session = some y
  number : y.number = x.number
  begun : s'.begun = s.begun
  listening : s'.listening = s.listening
  codec : s'.rig.codec = s.rig.codec
  running : s.running = false → s'.running = false
  preparing : ∀ settings, s'.owner ≠ .preparing settings
  told : Tells (· = x.number) s s'

section Within
variable {s s' : State} {x y : Session}

theorem Within.tell (h : Within s x s' y) (e : Event) : Within s x (s'.tell x.number e) y := by
  refine ⟨?_, h.number, ?_, ?_, ?_, ?_, ?_, h.told.tell rfl e⟩
  · rw [tell_session]; exact h.session
  · rw [tell_begun]; exact h.begun
  · rw [tell_listening]; exact h.listening
  · rw [tell_rig]; exact h.codec
  · rw [tell_running]; exact h.running
  · rw [tell_owner]; exact h.preparing

theorem Within.tellAny {α : Type} (h : Within s x s' y) (event : α → Event) (a : Option α) :
    Within s x (s'.tellAny x.number event a) y := by
  cases a with
  | none => exact h
  | some a => exact h.tell _

theorem Within.answer (h : Within s x s' y) (a : Except StartError Unit) :
    Within s x (s'.answer a) y :=
  ⟨h.session, h.number, h.begun, h.listening, h.codec, h.running, h.preparing,
    h.told.answer a⟩

theorem Within.signal (h : Within s x s' y) (a : Afterwards) :
    Within s x (s'.signal a) { y with signalled := true } := by
  simp only [State.signal, h.session]
  exact ⟨rfl, h.number, h.begun, h.listening, h.codec, fun _ => rfl, fun _ e => (by cases e),
    h.told⟩

structure Gone (s : State) (x : Session) (s' : State) : Prop where
  session : s'.session = none
  begun : s'.begun = s.begun
  told : Tells (· = x.number) s s'

theorem goOn_gone (hs : s'.session = none) (hb : s'.begun = s.begun)
    (ht : Tells (· = x.number) s s') (a : Afterwards) :
    Gone s x (s'.goOn a) := by
  cases a with
  | fail e => exact ⟨hs, hb, ht.answer _⟩
  | _ => exact ⟨hs, hb, ht⟩

theorem reclaim_gone (x : Session) (a : Afterwards) : Gone s x (s.reclaim x a) := by
  unfold reclaim
  dsimp only
  split
  · apply goOn_gone
    · simp
    · simp
    · exact Tells.tell (P := (· = x.number)) (.of_eq rfl) rfl _
  · apply goOn_gone
    · rfl
    · rfl
    · exact .of_eq rfl

theorem spawn_within (x : Session) (w : Worker) : ∃ y, Within s x (s.spawn x w) y := by
  cases w with
  | encoder =>
    refine ⟨_, rfl, rfl, rfl, rfl, rfl, id, fun _ h => ?_, .of_eq rfl⟩
    simp only [spawn] at h; split at h <;> cases h
  | _ => exact ⟨_, rfl, rfl, rfl, rfl, rfl, id, fun _ h => (by cases h), .of_eq rfl⟩

theorem announce_within (x : Session) : ∃ y, Within s x (s.announce x) y := by
  refine ⟨{ x with announced := true }, Within.answer (Within.tell ?_ _) _⟩
  exact ⟨rfl, rfl, rfl, rfl, rfl, id, fun _ h => (by cases h), .of_eq rfl⟩

section Quiet
variable (hp : ∀ settings, s.owner ≠ .preparing settings)
include hp

theorem within_refl (hx : s.session = some x) : Within s x s x :=
  ⟨hx, rfl, rfl, rfl, rfl, id, hp, .of_eq rfl⟩

theorem abandon_within (x : Session) : ∃ y, Within s x (s.abandon x) y := by
  unfold abandon
  split <;> split <;> exact ⟨_, rfl, rfl, rfl, rfl, rfl, id, hp, .of_eq rfl⟩

theorem ProducerStep.within (h : ProducerStep s x s') : ∃ y, Within s x s' y := by
  obtain ⟨r, d, q, p, hr, rfl⟩ := h.shape
  exact ⟨_, rfl, rfl, rfl, rfl, rfl, hr, hp, .of_eq rfl⟩

theorem EncoderStep.within (h : EncoderStep s x s') : ∃ y, Within s x s' y := by
  cases h with
  | coded p c n hs hb =>
    constructor
    apply Within.tellAny
    exact ⟨rfl, rfl, rfl, rfl, rfl, id, hp, .of_eq rfl⟩
  | failed => exact ⟨_, rfl, rfl, rfl, rfl, rfl, fun _ => rfl, hp, .of_eq rfl⟩
  | _ => exact ⟨_, rfl, rfl, rfl, rfl, rfl, id, hp, .of_eq rfl⟩

theorem LocalizerStep.within (h : LocalizerStep s x s') : ∃ y, Within s x s' y := by
  cases h with
  | located l f v t hl hs hn ht =>
    constructor
    apply Within.tellAny
    exact ⟨rfl, rfl, rfl, rfl, rfl, id, hp, .of_eq rfl⟩
  | _ => exact ⟨_, rfl, rfl, rfl, rfl, rfl, id, hp, .of_eq rfl⟩

/-- A step in a session leaves its surroundings alone, unless it is the end of the session. -/
theorem SessionStep.within {l : Label} (hx : s.session = some x) (h : SessionStep s x l s') :
    (∃ a, s' = s.reclaim x a) ∨ ∃ y, Within s x s' y := by
  cases h with
  | refused => exact .inr ⟨_, (within_refl hp hx).answer _⟩
  | restarted => exact .inr ⟨_, (within_refl hp hx).signal _⟩
  | stopped => exact .inr ⟨_, (within_refl hp hx).signal _⟩
  | reclaimed a => exact .inl ⟨a, rfl⟩
  | spawned w => exact .inr (spawn_within x w)
  | announced => exact .inr (announce_within x)
  | spawnFailed =>
    obtain ⟨y, hy⟩ := abandon_within hp x
    exact .inr ⟨_, hy.signal _⟩
  | producer _ h => exact .inr (h.within hp)
  | encoder _ h => exact .inr (h.within hp)
  | localizer _ h => exact .inr (h.within hp)
  | letGo => exact .inr ⟨x, hx, rfl, rfl, rfl, rfl, id, hp, .of_eq rfl⟩
  | _ => exact .inr ⟨_, rfl, rfl, rfl, rfl, rfl, id, hp, .of_eq rfl⟩

end Quiet

end Within

/-! ## Sessions are numbered -/

/-- Sessions are numbered by those begun before, and none is there when one is prepared. -/
structure Numbered (s : State) : Prop where
  told : ∀ m e, .told m e ∈ s.trace → m < s.begun
  session : ∀ x, s.session = some x → x.number < s.begun
  preparing : ∀ settings, s.owner = .preparing settings → s.session = none

section Numbered
variable {s s' : State}

/-- Without a session the owner prepares one, or none begins. -/
theorem step_of_none {l : Label} (hx : s.session = none) (h : s.step l = some s') :
    (∃ settings, s.owner = .preparing settings ∧ s' = s.prepare settings) ∨
      (s'.session = none ∧ s'.begun = s.begun ∧
        Tells (fun _ => False) s s') := by
  cases l with
  | equip rig =>
    simp only [step] at h
    split at h
    · cases h; exact .inr ⟨hx, rfl, .of_eq rfl⟩
    · cases h
  | letGo => cases h; exact .inr ⟨hx, rfl, .of_eq rfl⟩
  | start settings =>
    simp only [step, beginStart, signal, hx] at h
    split at h
    · obtain rfl := Option.some.inj h
      split
      · exact .inr ⟨hx, rfl, Tells.answer (.of_eq rfl) _⟩
      · exact .inr ⟨rfl, rfl, .of_eq rfl⟩
    · cases h
  | stop =>
    simp only [step, signal, hx] at h
    split at h
    · cases h; exact .inr ⟨rfl, rfl, .of_eq rfl⟩
    · cases h
  | owner =>
    simp only [step, ownerStep, hx] at h
    split at h
    · rename_i settings ho
      cases h; exact .inl ⟨settings, ho, rfl⟩
    · rename_i he; cases he
    · rename_i he; cases he
    · rename_i he; cases he
    · cases h
  | spawnFails cause =>
    simp only [step, State.spawnFails, hx] at h
    split at h
    · rename_i he; cases he
    · cases h
  | _ => simp [step, hx] at h

/-- With a session, the hardware is changed, or the session makes a step, which may be its last. -/
theorem Numbered.step_of_some {x : Session} {l : Label} (hn : s.Numbered)
    (hx : s.session = some x) (h : s.step l = some s') :
    (l.equips = true ∧ ∃ rig, s' = { s with rig }) ∨ (∃ a, s' = s.reclaim x a) ∨
      ∃ y, SessionStep s x l s' ∧ Within s x s' y := by
  have hp : ∀ settings, s.owner ≠ .preparing settings := fun settings ho => by
    have := hn.preparing settings ho
    rw [hx] at this; cases this
  cases he : l.equips with
  | true =>
    cases l with
    | equip rig =>
      simp only [State.step] at h
      split at h
      · cases h; exact .inl ⟨rfl, rig, rfl⟩
      · cases h
    | _ => cases he
  | false =>
    have hc := step_cases he hp hx h
    rcases hc.within hp hx with ha | ⟨y, hw⟩
    · exact .inr (.inl ha)
    · exact .inr (.inr ⟨y, hc, hw⟩)

theorem Numbered.prepare {settings : StreamSettings} (hn : s.Numbered) (hx : s.session = none) :
    (s.prepare settings).Numbered := by
  have hc := prepare_cases s settings
  generalize s.prepare settings = s' at hc
  cases hc with
  | setUp =>
    refine ⟨fun m e h => Nat.lt_succ_of_lt (hn.told m e h), fun x h => ?_, fun _ h => (by cases h)⟩
    cases h; exact Nat.lt_succ_self _
  | _ =>
    refine ⟨fun m e h => hn.told m e (by simpa [answer] using h), fun x h => ?_, fun _ _ => hx⟩
    have h : s.session = some x := h
    rw [hx] at h; cases h

theorem Numbered.step {l : Label} (hn : s.Numbered) (h : s.step l = some s') : s'.Numbered := by
  cases hx : s.session with
  | none =>
    rcases step_of_none hx h with ⟨settings, -, rfl⟩ | ⟨h1, h2, h3⟩
    · exact hn.prepare hx
    · refine ⟨?_, ?_, fun _ _ => h1⟩
      · intro m e h
        rw [h2]; exact hn.told m e ((h3.mem h).resolve_right id)
      · intro x h
        rw [h1] at h; cases h
  | some x =>
    have hlt := hn.session x hx
    have told : ∀ m e, (.told m e ∈ s.trace ∨ m = x.number) → m < s.begun := by
      rintro m e (hm | rfl)
      · exact hn.told m e hm
      · exact hlt
    rcases hn.step_of_some hx h with ⟨-, rig, rfl⟩ | ⟨a, rfl⟩ | ⟨y, -, hw⟩
    · exact ⟨hn.told, hn.session, hn.preparing⟩
    · have hg := reclaim_gone (s := s) x a
      refine ⟨?_, ?_, fun _ _ => hg.session⟩
      · intro m e h
        rw [hg.begun]; exact told m e (hg.told.mem h)
      · intro x h
        rw [hg.session] at h; cases h
    · refine ⟨?_, ?_, fun settings h => absurd h (hw.preparing settings)⟩
      · intro m e h
        rw [hw.begun]; exact told m e (hw.told.mem h)
      · intro z h
        rw [hw.session] at h
        cases h
        rw [hw.begun, hw.number]; exact hlt

theorem numbered_of_run (rig : Rig) (listening : Bool) (ls : List Label) {s : State}
    (h : (State.new rig listening).steps ls = some s) : s.Numbered := by
  refine steps_induction (P := fun _ s => s.Numbered) ?_ ?_ ls h
  · exact ⟨fun _ _ h => (by cases h), fun _ h => (by cases h), fun _ h => (by cases h)⟩
  · intro ls l t u _ hl hn
    exact hn.step hl

end Numbered

/-! ## Runs of one session -/

/-- Session `x` has just been set up in some run of a new streamer: its device and its codec are
open, and it has no thread yet. -/
structure SetUp (s₀ : State) (settings : StreamSettings) (x : Session) : Prop where
  reached : ∃ rig listening before s, (State.new rig listening).steps before = some s ∧
    s.owner = .preparing settings ∧ s.step .owner = some s₀
  owner : s₀.owner = .spawning .producer
  session : s₀.session = some x

/-- Session `x` was set up in `s₀`; a run, in which the hardware stays in place, leads to `s`, where
the session is still there and is `y`. -/
structure SessionRun (s₀ : State) (settings : StreamSettings) (x : Session) (ls : List Label)
    (s : State) (y : Session) : Prop where
  setUp : SetUp s₀ settings x
  steps : s₀.steps ls = some s
  keeps : ∀ l ∈ ls, l.equips = false
  session : s.session = some y
  number : y.number = x.number

/-- A device with two periods of three samples, and a codec with blocks of two samples that holds
nothing back. -/
def sampleRig : Rig :=
  .new ⟨none, [[1, 2, 3], [4, 5, 6]], false⟩ (.scripted 2 0 none false) (fun _ => none) 7

/-- Settings with periods of three samples and room for four of them. -/
def sampleSettings : StreamSettings :=
  { StreamSettings.standard with periodSize := 3, queueSize := 4 }

section SessionRun
variable {s₀ s s' : State} {settings : StreamSettings} {x y : Session} {ls : List Label}

theorem SetUp.first {rig : Rig} {listening : Bool}
    (h : (State.new rig listening).steps [.start settings, .owner] = some s₀)
    (ho : s₀.owner = .spawning .producer) (hx : s₀.session = some x) : SetUp s₀ settings x := by
  obtain ⟨t, ht, h⟩ := steps_cons.1 h
  obtain ⟨u, hu, h⟩ := steps_cons.1 h
  obtain rfl : u = s₀ := by simpa [steps] using h
  cases ht
  exact ⟨⟨rig, listening, [.start settings], _, rfl, rfl, hu⟩, ho, hx⟩

theorem SetUp.first_rig {rig : Rig} {listening : Bool}
    (h : (State.new rig listening).steps [.start settings, .owner] = some s₀)
    (ho : s₀.owner = .spawning .producer) :
    s₀.rig.device = rig.device ∧ s₀.rig.codec = rig.codec := by
  obtain ⟨t, ht, h⟩ := steps_cons.1 h
  obtain ⟨u, hu, h⟩ := steps_cons.1 h
  obtain rfl : u = s₀ := by simpa [steps] using h
  cases ht
  have hprep : ((State.new rig listening).beginStart settings).prepare settings = u :=
    Option.some.inj hu
  have hc := prepare_cases ((State.new rig listening).beginStart settings) settings
  rw [hprep] at hc
  cases hc with
  | setUp _ _ _ _ _ _ _ _ _ hr => exact ⟨hr.1, hr.2.1⟩
  | _ => cases ho

theorem SetUp.numbered (h : SetUp s₀ settings x) : s₀.Numbered := by
  obtain ⟨rig, listening, before, s, hs, -, h1⟩ := h.reached
  exact (numbered_of_run rig listening before hs).step h1

/-- Session `x` was set up for these settings in state `s`, which the owner left as `s₀`. -/
structure Prepared (s : State) (settings : StreamSettings) (audio : AudioConfig)
    (localizer : Option (Localizer Float32)) (capture : Capture) (encoder : Encoder) (s₀ : State)
    (x : Session) : Prop where
  numbered : s.Numbered
  resolved : settings.resolve? s.rig.geometry = some (audio, localizer)
  opened : ∃ p answer, Encoder.new.init p answer = (encoder, .ok ())
  session : x = s.setUp settings audio localizer capture encoder
  trace : s₀.trace = s.trace
  running : s₀.running = true
  now : s₀.rig.now = s.rig.now

theorem SetUp.prepared (h : SetUp s₀ settings x) : ∃ s audio localizer capture encoder,
    Prepared s settings audio localizer capture encoder s₀ x := by
  obtain ⟨rig, listening, before, s, hs, ho, h1⟩ := h.reached
  simp only [step, ownerStep, ho, Option.some.injEq] at h1
  have hc : PrepareStep s settings s₀ := h1 ▸ prepare_cases s settings
  have hx := h.session
  cases hc with
  | setUp audio localizer capture effects encoder rig ha hc he hr =>
    refine ⟨s, audio, localizer, capture, encoder, numbered_of_run _ _ before hs, ha, ⟨_, _, he⟩,
      ?_, rfl, rfl, hr.2.2.2⟩
    exact (Option.some.inj hx).symm
  | _ =>
    have ho := h.owner
    cases ho

theorem SetUp.untold (h : SetUp s₀ settings x) :
    s₀.packets x.number = [] ∧ s₀.sightings x.number = [] := by
  obtain ⟨s, audio, localizer, capture, encoder, hp⟩ := h.prepared
  have hne : ∀ m e, .told m e ∈ s₀.trace → m ≠ x.number := fun m e hm => by
    rw [hp.trace] at hm
    rw [hp.session]
    exact Nat.ne_of_lt (hp.numbered.told m e hm)
  exact ⟨packets_eq_nil hne, sightings_eq_nil hne⟩

theorem SessionRun.numbered (h : SessionRun s₀ settings x ls s y) : s.Numbered := by
  obtain ⟨rig, listening, before, t, hs, -, h1⟩ := h.setUp.reached
  refine numbered_of_run rig listening (before ++ .owner :: ls) ?_
  rw [steps_append, hs]
  exact steps_cons.2 ⟨s₀, h1, h.steps⟩

/-- What is so when a session has been set up and is preserved by every step in the session is so
at the end of each of its runs. -/
theorem SessionRun.induction {Q : List Label → State → Session → Prop} (h0 : Q [] s₀ x)
    (hQ : ∀ {ls l s y s' y'}, SessionRun s₀ settings x ls s y → Q ls s y →
      SessionStep s y l s' → Within s y s' y' → Q (ls ++ [l]) s' y')
    (h : SessionRun s₀ settings x ls s y) : Q ls s y := by
  have key : ∀ ls {s}, s₀.steps ls = some s → (∀ l ∈ ls, l.equips = false) →
      s.Numbered ∧ x.number < s.begun ∧ ∀ y, s.session = some y → x.number < y.number ∨
        (y.number = x.number ∧ (∀ settings, s.owner ≠ .preparing settings) ∧ Q ls s y) := by
    refine steps_induction ?_ ?_
    · refine fun _ => ⟨h.setUp.numbered, h.setUp.numbered.session x h.setUp.session, fun y hy => ?_⟩
      rw [h.setUp.session] at hy
      cases hy
      refine .inr ⟨rfl, fun settings ho => ?_, h0⟩
      rw [h.setUp.owner] at ho; cases ho
    · intro ls l t u ht hl ih hk
      have hkeeps : ∀ l ∈ ls, l.equips = false := fun l hm => hk l (List.mem_append_left _ hm)
      obtain ⟨hn, hb, hy⟩ := ih hkeeps
      have he : l.equips = false := hk l (by simp)
      refine ⟨hn.step hl, ?_⟩
      cases hx : t.session with
      | none =>
        rcases step_of_none hx hl with ⟨st, ho, rfl⟩ | ⟨h1, h2, h3⟩
        · have hc := prepare_cases t st
          generalize t.prepare st = u at hc
          cases hc with
          | setUp => exact ⟨Nat.lt_succ_of_lt hb, fun y hy => (by cases hy; exact .inl hb)⟩
          | _ =>
            refine ⟨hb, fun y hy => ?_⟩
            have hy : t.session = some y := hy
            rw [hx] at hy; cases hy
        · exact ⟨h2 ▸ hb, fun y hy => (by rw [h1] at hy; cases hy)⟩
      | some z =>
        rcases hn.step_of_some hx hl with ⟨he', -⟩ | ⟨a, rfl⟩ | ⟨y, hc, hw⟩
        · rw [he] at he'; cases he'
        · have hg := reclaim_gone (s := t) z a
          exact ⟨hg.begun ▸ hb, fun y hy => (by rw [hg.session] at hy; cases hy)⟩
        · refine ⟨hw.begun ▸ hb, fun y' hy' => ?_⟩
          rw [hw.session] at hy'
          cases hy'
          rcases hy z hx with hlt | ⟨heq, -, hq⟩
          · exact .inl (hw.number ▸ hlt)
          · refine .inr ⟨hw.number.trans heq, hw.preparing, hQ ?_ hq hc hw⟩
            exact ⟨h.setUp, ht, hkeeps, hx, heq⟩
  obtain ⟨-, -, hy⟩ := key ls h.steps h.keeps
  rcases hy y h.session with hlt | ⟨-, -, hq⟩
  · have := h.number; omega
  · exact hq

theorem SessionRun.listening (h : SessionRun s₀ settings x ls s y) : s.listening = s₀.listening :=
  h.induction (Q := fun _ s _ => s.listening = s₀.listening) rfl
    fun _ ih _ hw => hw.listening.trans ih

theorem SessionRun.codec (h : SessionRun s₀ settings x ls s y) : s.rig.codec = s₀.rig.codec :=
  h.induction (Q := fun _ s _ => s.rig.codec = s₀.rig.codec) rfl
    fun _ ih _ hw => hw.codec.trans ih

end SessionRun

/-! ## Threads are spawned in turn -/

/-- A thread that is still to be spawned has not begun. -/
structure Launching (s : State) (y : Session) : Prop where
  producer : s.owner = .spawning .producer → y.producer.stage = .ready
  encoder : s.owner = .spawning .producer ∨ s.owner = .spawning .encoder →
    y.encoder.stage = .ready
  localizer : ∀ w, s.owner = .spawning w → ∀ l, y.localizer = some l → l.stage = .ready

section Launching
variable {s₀ s s' : State} {settings : StreamSettings} {x y : Session} {ls : List Label}

theorem launching_of_ne (h : ∀ w, s.owner ≠ .spawning w) : Launching s y :=
  ⟨fun e => absurd e (h _), fun e => (by rcases e with e | e <;> exact absurd e (h _)),
    fun w e => absurd e (h w)⟩

theorem SetUp.launching (h : SetUp s₀ settings x) : Launching s₀ x := by
  obtain ⟨s, audio, localizer, capture, encoder, hp⟩ := h.prepared
  obtain rfl := hp.session
  refine ⟨fun _ => rfl, fun _ => rfl, fun w _ l hl => ?_⟩
  obtain ⟨v, -, rfl⟩ := Option.map_eq_some_iff.1 hl
  rfl

/-! A thread that makes a step has begun, and leaves the owner and the other threads alone. -/

theorem ProducerStep.started (hc : ProducerStep s x s') (hy : s'.session = some y) :
    y.producer.stage ≠ .ready ∧ s'.owner = s.owner ∧ y.encoder = x.encoder ∧
      y.localizer = x.localizer := by
  cases hc with
  | checked | read =>
    cases hy
    refine ⟨?_, rfl, rfl, rfl⟩
    dsimp only
    split <;> simp
  | _ =>
    cases hy
    exact ⟨by simp, rfl, rfl, rfl⟩

theorem EncoderStep.started (hc : EncoderStep s x s') (hy : s'.session = some y) :
    y.encoder.stage ≠ .ready ∧ s'.owner = s.owner ∧ y.producer = x.producer ∧
      y.localizer = x.localizer := by
  cases hc with
  | took =>
    cases hy
    refine ⟨?_, rfl, rfl, rfl⟩
    dsimp only
    split <;> simp
  | coded p c n =>
    rw [tellAny_session] at hy
    cases hy
    refine ⟨?_, tellAny_owner _ _ _, rfl, rfl⟩
    dsimp only
    split <;> simp
  | _ =>
    cases hy
    exact ⟨by simp, rfl, rfl, rfl⟩

theorem LocalizerStep.started (hc : LocalizerStep s x s') (hy : s'.session = some y) :
    (∀ m, y.localizer = some m → m.stage ≠ .ready) ∧ s'.owner = s.owner ∧
      y.producer = x.producer ∧ y.encoder = x.encoder := by
  cases hc with
  | located l f v t =>
    rw [tellAny_session] at hy
    cases hy
    refine ⟨fun m hm => ?_, tellAny_owner _ _ _, rfl, rfl⟩
    cases hm
    simp
  | _ =>
    cases hy
    refine ⟨fun m hm => ?_, rfl, rfl, rfl⟩
    cases hm
    simp

/-- A step of a thread that is ready would be its first. -/
theorem Launching.keep (h : Launching s x) (ho : s'.owner = s.owner)
    (hp : x.producer.stage = .ready → y.producer.stage = .ready)
    (he : x.encoder.stage = .ready → y.encoder.stage = .ready)
    (hl : (∀ l, x.localizer = some l → l.stage = .ready) →
      ∀ l, y.localizer = some l → l.stage = .ready) : Launching s' y := by
  refine ⟨fun e => hp (h.producer ?_), fun e => he (h.encoder ?_), fun w e => hl (h.localizer w ?_)⟩
  · rw [← ho]; exact e
  · rw [← ho]; exact e
  · rw [← ho]; exact e

theorem Launching.step {l : Label} (h : Launching s x) (hx : s.session = some x)
    (hc : SessionStep s x l s') (hw : Within s x s' y) : Launching s' y := by
  have hy := hw.session
  cases hc with
  | letGo =>
    obtain rfl : x = y := by simpa [hx] using hy
    exact ⟨h.producer, h.encoder, h.localizer⟩
  | refused settings ho =>
    refine launching_of_ne fun w e => ?_
    have e : s.owner = _ := e
    rw [ho] at e; cases e
  | restarted settings =>
    simp only [signal, hx]
    exact launching_of_ne fun w e => (by cases e)
  | stopped =>
    simp only [signal, hx]
    exact launching_of_ne fun w e => (by cases e)
  | reclaimed a => rw [(reclaim_gone (s := s) x a).session] at hy; cases hy
  | spawned w ho =>
    cases w with
    | producer =>
      cases hy
      exact ⟨fun e => (by cases e), fun _ => h.encoder (.inl ho), fun w _ => h.localizer _ ho⟩
    | encoder =>
      cases hy
      refine ⟨?_, ?_, fun w _ => h.localizer _ ho⟩
      · intro e
        simp only [spawn] at e; split at e <;> cases e
      · intro e
        simp only [spawn] at e; split at e <;> rcases e with e | e <;> cases e
    | localizer => exact launching_of_ne fun w e => (by cases e)
  | announced =>
    refine launching_of_ne fun w e => ?_
    have e : (tell _ _ _).owner = _ := e
    simp at e
  | spawnFailed w cause =>
    obtain ⟨z, hz⟩ := abandon_within (s := s) (fun st => (by rw [‹s.owner = _›]; nofun)) x
    simp only [signal, hz.session]
    exact launching_of_ne fun w e => (by cases e)
  | producer _ hc =>
    obtain ⟨-, ho, he, hl⟩ := hc.started hy
    refine h.keep ho (fun e => absurd e hc.not_ready) ?_ ?_
    · rw [he]; exact id
    · rw [hl]; exact id
  | encoder _ hc =>
    obtain ⟨-, ho, hp, hl⟩ := hc.started hy
    refine h.keep ho ?_ (fun e => absurd e hc.not_ready) ?_
    · rw [hp]; exact id
    · rw [hl]; exact id
  | localizer _ hc =>
    obtain ⟨-, ho, hp, he⟩ := hc.started hy
    obtain ⟨m, hm, hs⟩ := hc.not_ready
    refine h.keep ho ?_ ?_ fun e => absurd (e m hm) hs
    · rw [hp]; exact id
    · rw [he]; exact id
  | encoderQuit hs hg =>
    cases hy
    exact h.keep rfl id (fun e => (by rw [hs] at e; cases e)) id
  | localizerQuit m hm hs hg =>
    cases hy
    refine h.keep rfl id id fun e => ?_
    have := e m hm
    rw [hs] at this; cases this

theorem SessionRun.launching (h : SessionRun s₀ settings x ls s y) : Launching s y :=
  h.induction (Q := fun _ s y => Launching s y) h.setUp.launching
    fun hrun hl hc hw => hl.step hrun.session hc hw

end Launching

end State

end MicStream
