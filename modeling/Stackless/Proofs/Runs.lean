import Stackless.Proofs.Passes

/-!
# Runs of flat code

A run walks over the indices of a body.  At each index it makes one **move**: it
goes on somewhere without doing anything, carries out an instruction, tests a
condition, or stops.  What the moves of a body are is its **flow**; what carrying
out and testing mean for a state is left open (`Meaning`).  A run leaves behind a
list of **events**, the instructions carried out and the tests with their outcomes.

Two flows have the same runs (`SameRuns`) if from every state they stop at the same
index with the same state and the same events, or both go on for ever, and on the
way have the same events.

To show this, moves that do nothing are skipped.  `Leads` says that one index leads
to another by such moves, `Arrives` that it leads to one where something happens.

* `sameRuns_of_matching` — flows whose matching indices arrive at the same indices
  and make the same moves there have the same runs;
* `sameRuns_of_agree` — so do flows that agree on all indices that a run can come
  to;
* `sameRuns_of_shortcut` — so do a flow and one that takes shortcuts in it.
-/

namespace Stackless.Flat

/-- What a run does at an index. -/
inductive Move where
  /-- It does nothing and goes on at an index. -/
  | go (next : Nat)
  /-- It carries out the instruction and goes on behind it. -/
  | act
  /-- It tests the condition and goes on at an index if the outcome is as expected,
  or else behind the branch. -/
  | test (expected : Bool) (next : Nat)
  | stop
  deriving DecidableEq

/-- The moves at all indices. -/
abbrev Flow := Nat → Move

/-- The move of an instruction at an index, when `dest` finds the markers. -/
def moveOf (dest : Target → Option Nat) (index : Nat) : Instruction → Move
  | .removed | .marker _ => .go (index + 1)
  | .jump target =>
    match dest target with
    | some marker => .go (marker + 1)
    | none => .stop
  | .branch expected _ target =>
    match dest target with
    | some marker => .test expected (marker + 1)
    | none => .stop
  | .ret _ => .stop
  | _ => .act

/-- The flow of a body, when `dest` finds the markers.  Behind the body runs stop. -/
def flowBy (dest : Target → Option Nat) (body : List Op) : Flow := fun index =>
  match body[index]? with
  | some op => moveOf dest index op.instruction
  | none => .stop

/-- The index of the marker with a name.  The entry does not count. -/
def markerIndex? (body : List Op) (name : String) : Option Nat :=
  (body.tail.findIdx? fun op => op.instruction = .marker name).map (· + 1)

/-- The flow of a body: a jump goes on behind the marker of its name. -/
def flow (body : List Op) : Flow :=
  flowBy (fun target => markerIndex? body target.marker) body

/-- What carrying out an instruction does to a state, and whether the condition of a
branch holds in it, both by index. -/
structure Meaning (σ : Type) where
  act : Nat → σ → σ
  holds : Nat → σ → Bool

/-- What a run leaves behind. -/
inductive Event where
  /-- The instruction at an index was carried out. -/
  | act (index : Nat)
  /-- The branch at an index was decided. -/
  | test (index : Nat) (outcome : Bool)
  deriving DecidableEq

/-- Where a run stands: the index, the state, and the events so far. -/
structure Config (σ : Type) where
  index : Nat
  state : σ
  events : List Event
  deriving DecidableEq

/-- The start of a run. -/
def Config.start {σ : Type} (state : σ) : Config σ :=
  ⟨0, state, []⟩

namespace Flow

variable {σ : Type}

/-- One move of a run, unless it stops. -/
def step (F : Flow) (m : Meaning σ) (c : Config σ) : Option (Config σ) :=
  match F c.index with
  | .go next => some { c with index := next }
  | .act => some ⟨c.index + 1, m.act c.index c.state, c.events ++ [.act c.index]⟩
  | .test expected next =>
    let outcome := m.holds c.index c.state
    some ⟨if outcome = expected then next else c.index + 1, c.state,
      c.events ++ [.test c.index outcome]⟩
  | .stop => none

/-- A number of moves of a run. -/
def run (F : Flow) (m : Meaning σ) : Nat → Config σ → Option (Config σ)
  | 0, c => some c
  | n + 1, c => (F.step m c).bind (run F m n)

/-- A run comes from one configuration to another. -/
def Reaches (F : Flow) (m : Meaning σ) (c c' : Config σ) : Prop :=
  ∃ n, F.run m n c = some c'

/-- A run ends. -/
def Stops (F : Flow) (m : Meaning σ) (c c' : Config σ) : Prop :=
  F.Reaches m c c' ∧ F.step m c' = none

/-- A run goes on for ever. -/
def Endless (F : Flow) (m : Meaning σ) (c : Config σ) : Prop :=
  ∀ n, ∃ c', F.run m n c = some c'

end Flow

/-- **Two flows have the same runs.**  From every state they stop with the same index,
state and events, or both do not stop; and they come to the same events with the same
states. -/
def SameRuns (F G : Flow) : Prop :=
  ∀ (σ : Type) (m : Meaning σ) (state : σ),
    (∀ c, F.Stops m (.start state) c ↔ G.Stops m (.start state) c) ∧
    (F.Endless m (.start state) ↔ G.Endless m (.start state)) ∧
    ∀ events state', (∃ i, F.Reaches m (.start state) ⟨i, state', events⟩) ↔
      ∃ i, G.Reaches m (.start state) ⟨i, state', events⟩

namespace Flow

variable {σ : Type} {F G : Flow} {m : Meaning σ}

/-- Moves, and then more moves. -/
theorem run_add (F : Flow) (m : Meaning σ) (k n : Nat) (c : Config σ) :
    F.run m (k + n) c = (F.run m k c).bind (F.run m n) := by
  induction k generalizing c with
  | zero =>
      rw [Nat.zero_add]
      rfl
  | succ k ih =>
      rw [Nat.add_right_comm]
      show (F.step m c).bind (F.run m (k + n)) = ((F.step m c).bind (F.run m k)).bind (F.run m n)
      rw [Option.bind_assoc]
      apply congrArg
      funext c'
      exact ih c'

theorem Reaches.refl (c : Config σ) : F.Reaches m c c :=
  ⟨0, rfl⟩

/-- Reaching is transitive. -/
theorem Reaches.trans {c c' c'' : Config σ} (h : F.Reaches m c c') (h' : F.Reaches m c' c'') :
    F.Reaches m c c'' := by
  obtain ⟨k, hk⟩ := h
  obtain ⟨n, hn⟩ := h'
  refine ⟨k + n, ?_⟩
  rw [run_add, hk]
  exact hn

theorem Reaches.step {c c' : Config σ} (h : F.step m c = some c') : F.Reaches m c c' := by
  refine ⟨1, ?_⟩
  show (F.step m c).bind (F.run m 0) = some c'
  rw [h]
  rfl

/-- A run ends only where it is stopped. -/
theorem eq_stop_of_step {c : Config σ} (h : F.step m c = none) : F c.index = .stop := by
  unfold step at h
  cases hmove : F c.index with
  | stop => rfl
  | go | act | test =>
      rw [hmove] at h
      cases h

theorem step_eq_none {c : Config σ} (h : F c.index = .stop) : F.step m c = none := by
  unfold step
  rw [h]

/-- A move leaves behind at most one event. -/
theorem events_of_step {c c' : Config σ} (h : F.step m c = some c') :
    ∃ more, c'.events = c.events ++ more ∧ more.length ≤ 1 := by
  unfold step at h
  cases hmove : F c.index with
  | go next =>
      rw [hmove] at h
      cases h
      exact ⟨[], (List.append_nil _).symm, Nat.zero_le 1⟩
  | act | test =>
      rw [hmove] at h
      cases h
      exact ⟨_, rfl, Nat.le_refl 1⟩
  | stop =>
      rw [hmove] at h
      cases h

/-- A run takes no event back. -/
theorem Reaches.events_prefix {c c' : Config σ} (h : F.Reaches m c c') : c.events <+: c'.events := by
  obtain ⟨n, hn⟩ := h
  induction n generalizing c with
  | zero =>
      cases hn
      exact List.prefix_rfl
  | succ n ih =>
      obtain ⟨next, hnext, hrest⟩ := Option.bind_eq_some_iff.mp hn
      obtain ⟨more, hmore, _⟩ := events_of_step hnext
      have hfirst : c.events <+: next.events := ⟨more, hmore.symm⟩
      exact hfirst.trans (ih hrest)

/-- Of a long run every first part is a run, and the rest follows it. -/
theorem reaches_of_le {c c' : Config σ} {k n : Nat} (hle : k ≤ n) (h : F.run m n c = some c') :
    ∃ middle, F.run m k c = some middle ∧ F.Reaches m middle c' := by
  obtain ⟨d, rfl⟩ := Nat.exists_eq_add_of_le hle
  rw [run_add] at h
  obtain ⟨middle, hmiddle, hrest⟩ := Option.bind_eq_some_iff.mp h
  exact ⟨middle, hmiddle, d, hrest⟩

/-- Where a run ends nothing follows. -/
theorem eq_of_reaches {c c' : Config σ} (hstop : F.step m c = none) (h : F.Reaches m c c') :
    c' = c := by
  obtain ⟨n, hn⟩ := h
  cases n with
  | zero =>
      cases hn
      rfl
  | succ n =>
      have hnone : F.run m (n + 1) c = none := by
        show (F.step m c).bind (F.run m n) = none
        rw [hstop]
        rfl
      rw [hnone] at hn
      cases hn

/-- Of two configurations that a run comes to, one comes first. -/
theorem Reaches.total {c c' c'' : Config σ} (h : F.Reaches m c c') (h' : F.Reaches m c c'') :
    F.Reaches m c' c'' ∨ F.Reaches m c'' c' := by
  obtain ⟨k, hk⟩ := h
  obtain ⟨n, hn⟩ := h'
  by_cases hle : k ≤ n
  · obtain ⟨middle, hmiddle, hrest⟩ := reaches_of_le hle hn
    rw [hk] at hmiddle
    cases hmiddle
    exact .inl hrest
  · obtain ⟨middle, hmiddle, hrest⟩ := reaches_of_le (Nat.le_of_not_le hle) hk
    rw [hn] at hmiddle
    cases hmiddle
    exact .inr hrest

/-- **A run ends in one way.**  The moves of a run are determined by the flow and the meaning, so
that two ends are the same configuration. -/
theorem Stops.unique {c c' c'' : Config σ} (h : F.Stops m c c') (h' : F.Stops m c c'') :
    c' = c'' := by
  rcases h.1.total h'.1 with hreach | hreach
  · exact (eq_of_reaches h.2 hreach).symm
  · exact eq_of_reaches h'.2 hreach

/-- **A run either stops or goes on for ever.** -/
theorem endless_iff (c : Config σ) : F.Endless m c ↔ ¬∃ c', F.Stops m c c' := by
  constructor
  · rintro h ⟨c', ⟨n, hn⟩, hstop⟩
    obtain ⟨c'', hnext⟩ := h (n + 1)
    rw [run_add, hn] at hnext
    have hnone : F.run m 1 c' = none := by
      show (F.step m c').bind (F.run m 0) = none
      rw [hstop]
      rfl
    rw [show (some c').bind (F.run m 1) = F.run m 1 c' from rfl, hnone] at hnext
    cases hnext
  · intro h n
    induction n with
    | zero => exact ⟨c, rfl⟩
    | succ n ih =>
        obtain ⟨c', hc'⟩ := ih
        rw [run_add, hc']
        cases hstep : F.step m c' with
        | none => exact absurd ⟨c', ⟨n, hc'⟩, hstep⟩ h
        | some next =>
            refine ⟨next, ?_⟩
            show (F.step m c').bind (F.run m 0) = some next
            rw [hstep]
            rfl

end Flow

/-- An index leads to another by moves that do nothing, such as jumps, markers and what was taken
out. There may be none of them. -/
inductive Leads (F : Flow) : Nat → Nat → Prop
  | here {i : Nat} : Leads F i i
  | go {i k j : Nat} : F i = .go k → Leads F k j → Leads F i j

/-- Something happens at an index. -/
def Busy (F : Flow) (j : Nat) : Prop :=
  ∀ k, F j ≠ .go k

/-- An index leads to one where something happens. It arrives nowhere if it leads into a ring of
jumps, and then its run is silent for ever. -/
def Arrives (F : Flow) (i j : Nat) : Prop :=
  Leads F i j ∧ Busy F j

namespace Leads

variable {F : Flow} {i j k : Nat}

theorem trans (h : Leads F i j) (h' : Leads F j k) : Leads F i k := by
  induction h with
  | here => exact h'
  | go hmove _ ih => exact .go hmove (ih h')

/-- Indices at which nothing happens lead on, one after the other. -/
theorem straight (hle : i ≤ j) (h : ∀ k, i ≤ k → k < j → F k = .go (k + 1)) : Leads F i j := by
  obtain ⟨n, rfl⟩ : ∃ n, j = i + n := ⟨j - i, by omega⟩
  induction n with
  | zero => exact .here
  | succ n ih =>
      have hfirst := ih (by omega) fun k hik hkn => h k hik (by omega)
      exact hfirst.trans (.go (h (i + n) (by omega) (by omega)) .here)

/-- A run follows. -/
theorem reaches {σ : Type} {m : Meaning σ} (h : Leads F i j) (state : σ) (events : List Event) :
    F.Reaches m ⟨i, state, events⟩ ⟨j, state, events⟩ := by
  induction h with
  | here => exact .refl _
  | go hmove _ ih =>
      refine Flow.Reaches.trans (.step ?_) ih
      unfold Flow.step
      rw [hmove]

/-- **There is one way only.**  Where an index arrives, everything on the way arrives
too. -/
theorem arrives_iff (h : Leads F i k) : Arrives F i j ↔ Arrives F k j := by
  constructor
  · rintro ⟨hlead, hbusy⟩
    refine ⟨?_, hbusy⟩
    induction h with
    | here => exact hlead
    | @go i l k hmove _ ih =>
        apply ih
        cases hlead with
        | here => exact absurd hmove (hbusy l)
        | go hmove' hrest =>
            rw [hmove] at hmove'
            cases hmove'
            exact hrest
  · rintro ⟨hlead, hbusy⟩
    exact ⟨h.trans hlead, hbusy⟩

end Leads

/-- Two moves at an index that do the same and go on at matching indices. -/
inductive Move.Alike (P : Nat → Nat → Prop) (j : Nat) : Move → Move → Prop
  | act : P (j + 1) (j + 1) → Alike P j .act .act
  | test {expected : Bool} {next next' : Nat} : P next next' → P (j + 1) (j + 1) →
      Alike P j (.test expected next) (.test expected next')
  | stop : Alike P j .stop .stop

/-- **Indices of two flows match** if they arrive at the same indices, and what happens
there is the same and leads to matching indices again. -/
structure Matching (F G : Flow) (P : Nat → Nat → Prop) : Prop where
  arrives : ∀ i i', P i i' → ∀ j, Arrives F i j ↔ Arrives G i' j
  alike : ∀ i i', P i i' → ∀ j, Arrives F i j → Move.Alike P j (F j) (G j)

namespace Matching

variable {F G : Flow} {P : Nat → Nat → Prop}

/-- Matching goes both ways. -/
theorem symm (h : Matching F G P) : Matching G F fun i i' => P i' i := by
  constructor
  · intro i i' hP j
    exact (h.arrives i' i hP j).symm
  · intro i i' hP j harrives
    have halike := h.alike i' i hP j ((h.arrives i' i hP j).mpr harrives)
    revert halike
    generalize F j = x, G j = y
    intro halike
    cases halike with
    | act hnext => exact .act hnext
    | test htaken hnext => exact .test htaken hnext
    | stop => exact .stop

/-- A busy index that one flow is led to is come to by the other, and does the same there. -/
theorem reaches (h : Matching F G P) {σ : Type} {m : Meaning σ} {c : Config σ} {i₀ i' : Nat}
    (hP : P i₀ i') (hlead : Leads F i₀ c.index) (hbusy : Busy F c.index) :
    G.Reaches m { c with index := i' } c ∧ Move.Alike P c.index (F c.index) (G c.index) := by
  have hother := (h.arrives i₀ i' hP c.index).mp ⟨hlead, hbusy⟩
  exact ⟨hother.1.reaches c.state c.events, h.alike i₀ i' hP c.index ⟨hlead, hbusy⟩⟩

/-- Where the one flow stops the other stops too. -/
theorem stops (h : Matching F G P) {σ : Type} {m : Meaning σ} {c : Config σ} {i₀ i' : Nat}
    (hP : P i₀ i') (hlead : Leads F i₀ c.index) (hstop : F.step m c = none) :
    G.Stops m { c with index := i' } c := by
  have hmove := Flow.eq_stop_of_step hstop
  obtain ⟨hreach, halike⟩ := h.reaches (m := m) hP hlead fun k hk => by
    rw [hmove] at hk
    cases hk
  rw [hmove] at halike
  refine ⟨hreach, ?_⟩
  unfold Flow.step
  generalize G c.index = y at halike
  cases halike with
  | stop => rfl

/-- **A run of one flow is followed by the other.**  It comes to the same events and
the same state, and where the one stops the other stops too. -/
theorem follows (h : Matching F G P) {σ : Type} {m : Meaning σ} {n : Nat} :
    ∀ {c c' : Config σ} {i₀ i' : Nat}, P i₀ i' → Leads F i₀ c.index → F.run m n c = some c' →
      (∃ i, G.Reaches m { c with index := i' } { c' with index := i }) ∧
      (F.step m c' = none → G.Stops m { c with index := i' } c') := by
  induction n with
  | zero =>
      intro c c' i₀ i' hP hlead hrun
      cases hrun
      exact ⟨⟨i', .refl _⟩, fun hstop => h.stops hP hlead hstop⟩
  | succ n ih =>
      intro c c' i₀ i' hP hlead hrun
      obtain ⟨next, hnext, hrest⟩ := Option.bind_eq_some_iff.mp hrun
      have hjoin : ∀ {next' : Config σ}, G.Reaches m { c with index := i' } c →
          G.step m c = some next' → next = { next' with index := next.index } →
          P next.index next'.index →
          (∃ i, G.Reaches m { c with index := i' } { c' with index := i }) ∧
          (F.step m c' = none → G.Stops m { c with index := i' } c') := by
        intro next' hreach hstep hsame hnextP
        obtain ⟨⟨i, hi⟩, hstop⟩ := ih hnextP .here hrest
        have heq : ({ next with index := next'.index } : Config σ) = next' := by
          rw [hsame]
        rw [heq] at hi hstop
        have hpre := hreach.trans (.step hstep)
        exact ⟨⟨i, hpre.trans hi⟩, fun hnone => ⟨hpre.trans (hstop hnone).1, (hstop hnone).2⟩⟩
      cases hmove : F c.index with
      | go k =>
          unfold Flow.step at hnext
          rw [hmove] at hnext
          cases hnext
          exact ih (c := { c with index := k }) hP (hlead.trans (.go hmove .here)) hrest
      | act =>
          obtain ⟨hreach, halike⟩ := h.reaches (m := m) hP hlead fun k hk => by
            rw [hmove] at hk
            cases hk
          unfold Flow.step at hnext
          rw [hmove] at hnext halike
          cases hnext
          generalize hother : G c.index = y at halike
          cases halike with
          | act hnextP =>
              have hstep : G.step m c = some
                  ⟨c.index + 1, m.act c.index c.state, c.events ++ [.act c.index]⟩ := by
                unfold Flow.step
                rw [hother]
              exact hjoin hreach hstep rfl hnextP
      | test expected target =>
          obtain ⟨hreach, halike⟩ := h.reaches (m := m) hP hlead fun k hk => by
            rw [hmove] at hk
            cases hk
          unfold Flow.step at hnext
          rw [hmove] at hnext halike
          cases hnext
          generalize hother : G c.index = y at halike
          cases halike with
          | @test _ _ target' htaken hnextP =>
              have hstep : G.step m c = some
                  ⟨if m.holds c.index c.state = expected then target' else c.index + 1, c.state,
                    c.events ++ [.test c.index (m.holds c.index c.state)]⟩ := by
                unfold Flow.step
                rw [hother]
              refine hjoin hreach hstep rfl ?_
              by_cases hout : m.holds c.index c.state = expected
              · simp only [hout, if_true]
                exact htaken
              · simp only [hout, if_false]
                exact hnextP
      | stop =>
          unfold Flow.step at hnext
          rw [hmove] at hnext
          cases hnext

end Matching

/-- **Flows that match from the start have the same runs.**  A run of one is turned into a run of
the other busy index by busy index, and moves that do nothing in between are not compared. -/
theorem sameRuns_of_matching {F G : Flow} {P : Nat → Nat → Prop} (h : Matching F G P) (h0 : P 0 0) :
    SameRuns F G := by
  intro σ m state
  have hstops : ∀ {F G : Flow} {P : Nat → Nat → Prop}, Matching F G P → P 0 0 → ∀ c,
      F.Stops m (.start state) c → G.Stops m (.start state) c := by
    rintro F G P h h0 c ⟨⟨n, hn⟩, hstop⟩
    exact (h.follows h0 .here hn).2 hstop
  have hreaches : ∀ {F G : Flow} {P : Nat → Nat → Prop}, Matching F G P → P 0 0 →
      ∀ events state', (∃ i, F.Reaches m (.start state) ⟨i, state', events⟩) →
        ∃ i, G.Reaches m (.start state) ⟨i, state', events⟩ := by
    rintro F G P h h0 events state' ⟨_, n, hn⟩
    exact (h.follows h0 .here hn).1
  have hiff : ∀ c, F.Stops m (.start state) c ↔ G.Stops m (.start state) c := fun c =>
    ⟨hstops h h0 c, hstops h.symm h0 c⟩
  refine ⟨hiff, ?_, fun events state' => ⟨hreaches h h0 events state', hreaches h.symm h0 events state'⟩⟩
  rw [Flow.endless_iff, Flow.endless_iff]
  simp only [hiff]

namespace SameRuns

variable {F G H : Flow}

theorem refl (F : Flow) : SameRuns F F :=
  fun _ _ _ => ⟨fun _ => Iff.rfl, Iff.rfl, fun _ _ => Iff.rfl⟩

theorem symm (h : SameRuns F G) : SameRuns G F := by
  intro σ m state
  obtain ⟨hstops, hendless, hreaches⟩ := h σ m state
  exact ⟨fun c => (hstops c).symm, hendless.symm, fun events state' => (hreaches events state').symm⟩

theorem trans (h : SameRuns F G) (h' : SameRuns G H) : SameRuns F H := by
  intro σ m state
  obtain ⟨hstops, hendless, hreaches⟩ := h σ m state
  obtain ⟨hstops', hendless', hreaches'⟩ := h' σ m state
  exact ⟨fun c => (hstops c).trans (hstops' c), hendless.trans hendless',
    fun events state' => (hreaches events state').trans (hreaches' events state')⟩

end SameRuns

/-- The indices at which a run may go on after a move. -/
def Move.nexts (index : Nat) : Move → List Nat
  | .go next => [next]
  | .act => [index + 1]
  | .test _ next => [next, index + 1]
  | .stop => []

/-- **Flows that agree wherever a run can come have the same runs.**  The set `R` has to hold the
start and all that a move leads to, and outside of it the flows may differ. -/
theorem sameRuns_of_agree {F G : Flow} {R : Nat → Prop} (h0 : R 0)
    (hsame : ∀ i, R i → F i = G i) (hnext : ∀ i, R i → ∀ k ∈ (F i).nexts i, R k) :
    SameRuns F G := by
  have hleads : ∀ {i j}, Leads F i j → R i → R j ∧ Leads G i j := by
    intro i j h
    induction h with
    | here => exact fun hR => ⟨hR, .here⟩
    | @go i k j hmove _ ih =>
        intro hR
        have hk := hnext i hR k (by rw [hmove]; exact List.mem_cons_self)
        obtain ⟨hj, hlead⟩ := ih hk
        exact ⟨hj, .go (by rw [← hsame i hR]; exact hmove) hlead⟩
  have hback : ∀ {i j}, Leads G i j → R i → R j ∧ Leads F i j := by
    intro i j h
    induction h with
    | here => exact fun hR => ⟨hR, .here⟩
    | @go i k j hmove _ ih =>
        intro hR
        rw [← hsame i hR] at hmove
        have hk := hnext i hR k (by rw [hmove]; exact List.mem_cons_self)
        obtain ⟨hj, hlead⟩ := ih hk
        exact ⟨hj, .go hmove hlead⟩
  have hmatching : Matching F G fun i i' => i = i' ∧ R i := by
    constructor
    · rintro i _ ⟨rfl, hR⟩ j
      constructor
      · rintro ⟨hlead, hbusy⟩
        obtain ⟨hj, hlead'⟩ := hleads hlead hR
        exact ⟨hlead', fun k hk => hbusy k (by rw [hsame j hj]; exact hk)⟩
      · rintro ⟨hlead, hbusy⟩
        obtain ⟨hj, hlead'⟩ := hback hlead hR
        exact ⟨hlead', fun k hk => hbusy k (by rw [← hsame j hj]; exact hk)⟩
    · rintro i _ ⟨rfl, hR⟩ j ⟨hlead, hbusy⟩
      obtain ⟨hj, _⟩ := hleads hlead hR
      have hall := hnext j hj
      rw [← hsame j hj]
      cases hmove : F j with
      | go k => exact absurd hmove (hbusy k)
      | act =>
          rw [hmove] at hall
          exact .act ⟨rfl, hall _ List.mem_cons_self⟩
      | test expected next =>
          rw [hmove] at hall
          exact .test ⟨rfl, hall _ List.mem_cons_self⟩
            ⟨rfl, hall _ (List.mem_cons_of_mem _ List.mem_cons_self)⟩
      | stop => exact .stop
  exact sameRuns_of_matching hmatching ⟨rfl, h0⟩

/-- An index leads to another by a number of moves that do nothing. -/
inductive LeadsIn (F : Flow) : (n : Nat) → Nat → Nat → Prop
  | here {i : Nat} : LeadsIn F 0 i i
  | go {n i k j : Nat} : F i = .go k → LeadsIn F n k j → LeadsIn F (n + 1) i j

theorem Leads.exists_count {F : Flow} {i j : Nat} (h : Leads F i j) : ∃ n, LeadsIn F n i j := by
  induction h with
  | here => exact ⟨0, .here⟩
  | go hmove _ ih =>
      obtain ⟨n, hn⟩ := ih
      exact ⟨n + 1, .go hmove hn⟩

/-- Further on the way is not further from its end. -/
theorem LeadsIn.exists_le {F : Flow} {i j k : Nat} (h : Leads F i k) (hbusy : Busy F j) :
    ∀ {n : Nat}, LeadsIn F n i j → ∃ n' ≤ n, LeadsIn F n' k j := by
  induction h with
  | here => exact fun {n} hn => ⟨n, Nat.le_refl n, hn⟩
  | @go i l k hmove _ ih =>
      intro n hn
      cases hn with
      | here => exact absurd hmove (hbusy l)
      | go hmove' hrest =>
          rw [hmove] at hmove'
          cases hmove'
          obtain ⟨n', hle, hn'⟩ := ih hrest
          exact ⟨n', by omega, hn'⟩

/-- A move that does the same as another and goes on where that one leads. -/
inductive Move.Ahead (F : Flow) : Move → Move → Prop
  | same (move : Move) : Ahead F move move
  | go {next next' : Nat} : Leads F next next' → Ahead F (.go next) (.go next')
  | test {expected : Bool} {next next' : Nat} : Leads F next next' →
      Ahead F (.test expected next) (.test expected next')

section Shortcuts

variable {F G : Flow}

/-- A shortcut goes on where the long way leads. -/
theorem Move.Ahead.leads {i k' : Nat} (h : Move.Ahead F (F i) (G i)) (hmove : G i = .go k') :
    Leads F i k' := by
  rw [hmove] at h
  generalize hlong : F i = move at h
  cases h with
  | same => exact .go hlong .here
  | go hlead => exact .go hlong hlead

/-- Shortcuts are taken where something happens on neither way. -/
theorem Move.Ahead.busy_iff {j : Nat} (h : Move.Ahead F (F j) (G j)) : Busy F j ↔ Busy G j := by
  unfold Busy
  generalize F j = x, G j = y at h
  cases h with
  | same => exact Iff.rfl
  | go _ =>
      constructor
      · intro hbusy
        exact absurd rfl (hbusy _)
      · intro hbusy
        exact absurd rfl (hbusy _)
  | test _ =>
      constructor
      · intro _ k hk
        cases hk
      · intro _ k hk
        cases hk

/-- **Shortcuts arrive where the long way arrives.**  By induction on the moves that do nothing, of
which a shortcut leaves out some. -/
theorem arrives_shortcut (h : ∀ i, Move.Ahead F (F i) (G i)) {n : Nat} :
    ∀ {i j : Nat}, LeadsIn F n i j → Busy F j → Arrives G i j := by
  -- a shortcut may skip many moves, so the induction is on all shorter ways
  induction n using Nat.strongRecOn with
  | ind n ih =>
      intro i j hlead hbusy
      cases hlead with
      | here => exact ⟨.here, (h i).busy_iff.mp hbusy⟩
      | @go n _ k _ hmove hrest =>
          have hahead := h i
          rw [hmove] at hahead
          generalize hshort : G i = move at hahead
          cases hahead with
          | same =>
              obtain ⟨hlead, hbusy'⟩ := ih n (by omega) hrest hbusy
              exact ⟨.go hshort hlead, hbusy'⟩
          | @go _ k' hskip =>
              obtain ⟨n', hle, hn'⟩ := LeadsIn.exists_le hskip hbusy hrest
              obtain ⟨hlead, hbusy'⟩ := ih n' (by omega) hn' hbusy
              exact ⟨.go hshort hlead, hbusy'⟩

/-- **A flow has the same runs as one that takes shortcuts in it.**  A shortcut leaves out moves
that do nothing, and a run through a ring of them is silent in both flows. -/
theorem sameRuns_of_shortcut (h : ∀ i, Move.Ahead F (F i) (G i)) : SameRuns F G := by
  have hback : ∀ {i j}, Leads G i j → Leads F i j := by
    intro i j hlead
    induction hlead with
    | here => exact .here
    | go hmove _ ih => exact ((h _).leads hmove).trans ih
  have hmatching : Matching F G (Leads F) := by
    constructor
    · intro i i' hlead j
      rw [hlead.arrives_iff]
      constructor
      · rintro ⟨hway, hbusy⟩
        obtain ⟨n, hn⟩ := hway.exists_count
        exact arrives_shortcut h hn hbusy
      · rintro ⟨hway, hbusy⟩
        exact ⟨hback hway, (h j).busy_iff.mpr hbusy⟩
    · rintro i i' _ j ⟨_, hbusy⟩
      have hahead := h j
      generalize hlong : F j = move at hahead
      generalize G j = move' at hahead
      cases hahead with
      | same =>
          cases move with
          | go k => exact absurd hlong (hbusy k)
          | act => exact .act .here
          | test expected next => exact .test .here .here
          | stop => exact .stop
      | @go next _ _ => exact absurd hlong (hbusy next)
      | test hlead => exact .test hlead .here
  exact sameRuns_of_matching hmatching .here

end Shortcuts

end Stackless.Flat
