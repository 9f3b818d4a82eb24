import Stackless.Proofs.Courses
import Stackless.Proofs.Landings

/-!
# Reading flat code as statements

A simple statement becomes several instructions, of which the last completes it; a
condition becomes several too, and a branch behind them decides it.  A **note** on an
instruction says what it completes or decides.  With notes, and a meaning for the
statements and conditions that they name, flat code can be run in the terms of
statement trees (`Reading`): an instruction with a note does what the note says, and
all others do nothing.

* `Annotates` — the notes on a piece of code are true, and nothing that acts is
  without one;
* `Reading.Comes` — a run comes from one index to another, with certain deeds on the
  way;
* `Reading.Carries` — a run takes the course of a statement.
-/

namespace Stackless.Flat

open Model (Stmt Expr Interpretation Deed Outcome Course Ending courseAll)

/-- What an instruction completes. -/
inductive Note where
  /-- A simple statement. -/
  | statement (stmt : Stmt)
  /-- The test of a condition. -/
  | test (condition : Expr)
  /-- The function, behind all its statements. -/
  | fallOff

section Pieces

variable {α : Type} {whole xs ys : List α} {start : Nat}

/-- A piece of a list stands in it from an index on. -/
def Stands (whole : List α) (start : Nat) (piece : List α) : Prop :=
  ∀ (k : Nat) x, piece[k]? = some x → whole[start + k]? = some x

/-- Pieces stand one after the other. -/
theorem stands_append :
    Stands whole start (xs ++ ys) ↔ Stands whole start xs ∧ Stands whole (start + xs.length) ys := by
  constructor
  · intro h
    constructor
    · intro k x hk
      have hlt := (List.getElem?_eq_some_iff.mp hk).1
      exact h k x (by rw [List.getElem?_append_left hlt]; exact hk)
    · intro k x hk
      rw [Nat.add_assoc]
      apply h
      rw [List.getElem?_append_right (by omega), Nat.add_sub_cancel_left]
      exact hk
  · rintro ⟨hx, hy⟩ k x hk
    rw [List.getElem?_append] at hk
    by_cases hlt : k < xs.length
    · rw [if_pos hlt] at hk
      exact hx k x hk
    · rw [if_neg hlt] at hk
      have hy := hy _ x hk
      rw [show start + xs.length + (k - xs.length) = start + k by omega] at hy
      exact hy

/-- A single element that stands in a list. -/
theorem stands_singleton {x : α} : Stands whole start [x] ↔ whole[start]? = some x := by
  constructor
  · intro h
    exact h 0 x rfl
  · intro h k y hk
    have hlt := (List.getElem?_eq_some_iff.mp hk).1
    obtain rfl : k = 0 := by
      simp only [List.length_singleton] at hlt
      omega
    cases hk
    exact h

theorem stands_cons {x : α} :
    Stands whole start (x :: xs) ↔ whole[start]? = some x ∧ Stands whole (start + 1) xs := by
  rw [← stands_singleton, ← List.singleton_append, stands_append]
  rfl

theorem stands_self (whole : List α) : Stands whole 0 whole := by
  intro k x hk
  rw [Nat.zero_add]
  exact hk

/-- What stands in a piece stands in the whole. -/
theorem Stands.trans {first : Nat} (h : Stands whole start xs) (h' : Stands xs first ys) :
    Stands whole (start + first) ys := by
  intro k x hk
  rw [Nat.add_assoc]
  exact h _ x (h' k x hk)

end Pieces

/-- Whether an instruction only computes values or says where to go on. -/
def Instruction.isSilent (instruction : Instruction) : Bool :=
  instruction.isLink || instruction.isInner

/-- The instructions that complete what a note names: a statement has its own code; a
condition, or what is left of it without a leading *not*, is computed and then decided
by a branch. -/
def Note.Completes (ctx : Context) (start : Nat) (inner : List Instruction) (last : Instruction) :
    Note → Prop
  | .statement stmt => isSimple stmt = true ∧ simpleCode ctx start stmt = .ok (inner ++ [last])
  | .test condition => ∃ value expected target,
      evaluate ctx start (polarity condition).1 = .ok value ∧ inner = value.code ∧
        last = .branch expected (value.ref start) target
  | .fallOff => inner = [] ∧ last = .ret none

/-- **The notes on a piece of code are true.**  Where something is said to be complete, its
code stands, and what has no note only computes values or says where to go on. -/
structure Annotates (ctx : Context) (start : Nat) (code : List Instruction)
    (notes : List (Option Note)) : Prop where
  length_eq : notes.length = code.length
  noted : ∀ (k : Nat) note, notes[k]? = some (some note) →
    ∃ first inner last, first + inner.length = k ∧ Stands code first (inner ++ [last]) ∧
      note.Completes ctx (start + first) inner last
  silent : ∀ (k : Nat) instruction, code[k]? = some instruction → notes[k]? = some none →
    instruction.isSilent = true

namespace Annotates

variable {ctx : Context} {start : Nat} {code code' : List Instruction}
  {notes notes' : List (Option Note)}

/-- Instructions without notes. -/
theorem unnoted (h : ∀ x ∈ code, x.isSilent = true) :
    Annotates ctx start code (List.replicate code.length none) := by
  refine ⟨List.length_replicate, ?_, ?_⟩
  · intro k note hk
    cases List.eq_of_mem_replicate (List.mem_of_getElem? hk)
  · intro k instruction hk _
    exact h instruction (List.mem_of_getElem? hk)

/-- An instruction that completes something. -/
theorem complete {inner : List Instruction} {last : Instruction} {note : Note}
    (hinner : ∀ x ∈ inner, x.isInner = true) (h : note.Completes ctx start inner last) :
    Annotates ctx start (inner ++ [last]) (List.replicate inner.length none ++ [some note]) := by
  refine ⟨by simp, ?_, ?_⟩
  · intro k note' hk
    rw [List.getElem?_append, List.length_replicate] at hk
    by_cases hlt : k < inner.length
    · rw [if_pos hlt] at hk
      cases List.eq_of_mem_replicate (List.mem_of_getElem? hk)
    · rw [if_neg hlt] at hk
      cases List.mem_singleton.mp (List.mem_of_getElem? hk)
      have hlength := (List.getElem?_eq_some_iff.mp hk).1
      refine ⟨0, inner, last, ?_, stands_self _, h⟩
      rw [List.length_singleton] at hlength
      omega
  · intro k instruction hinstr hk
    rw [List.getElem?_append] at hinstr
    by_cases hlt : k < inner.length
    · rw [if_pos hlt] at hinstr
      unfold Instruction.isSilent
      rw [hinner instruction (List.mem_of_getElem? hinstr), Bool.or_true]
    · rw [List.getElem?_append_right (by rw [List.length_replicate]; omega)] at hk
      cases List.mem_singleton.mp (List.mem_of_getElem? hk)

/-- **Notes on pieces are notes on the whole.** -/
theorem append (h : Annotates ctx start code notes)
    (h' : Annotates ctx (start + code.length) code' notes') :
    Annotates ctx start (code ++ code') (notes ++ notes') := by
  have hfirst : Stands (code ++ code') 0 code := (stands_append.mp (stands_self _)).1
  have hsecond : Stands (code ++ code') code.length code' := by
    have hbehind := (stands_append.mp (stands_self (code ++ code'))).2
    rw [Nat.zero_add] at hbehind
    exact hbehind
  have hcases : ∀ {k : Nat} {note : Option Note}, (notes ++ notes')[k]? = some note →
      (k < code.length ∧ notes[k]? = some note) ∨
        ∃ k', k = code.length + k' ∧ notes'[k']? = some note := by
    intro k note hk
    rw [List.getElem?_append, h.length_eq] at hk
    by_cases hlt : k < code.length
    · rw [if_pos hlt] at hk
      exact .inl ⟨hlt, hk⟩
    · rw [if_neg hlt] at hk
      exact .inr ⟨k - code.length, by omega, hk⟩
  refine ⟨?_, ?_, ?_⟩
  · rw [List.length_append, List.length_append, h.length_eq, h'.length_eq]
  · intro k note hk
    rcases hcases hk with ⟨_, hk⟩ | ⟨k', rfl, hk'⟩
    · obtain ⟨first, inner, last, hlength, hstands, hcompletes⟩ := h.noted k note hk
      have hwhole := hfirst.trans hstands
      rw [Nat.zero_add] at hwhole
      exact ⟨first, inner, last, hlength, hwhole, hcompletes⟩
    · obtain ⟨first, inner, last, hlength, hstands, hcompletes⟩ := h'.noted k' note hk'
      rw [Nat.add_assoc] at hcompletes
      exact ⟨code.length + first, inner, last, by omega, hsecond.trans hstands, hcompletes⟩
  · intro k instruction hinstr hk
    rcases hcases hk with ⟨hlt, hk⟩ | ⟨k', rfl, hk'⟩
    · rw [List.getElem?_append_left hlt] at hinstr
      exact h.silent k instruction hinstr hk
    · rw [List.getElem?_append_right (by omega), Nat.add_sub_cancel_left] at hinstr
      exact h'.silent k' instruction hinstr hk'

end Annotates

/-- A condition holds as it does without a leading *not*, turned around if there was
one. -/
theorem holds_polarity {σ : Type} (i : Interpretation σ) (condition : Expr) (state : σ) :
    (i.holds (polarity condition).1 state ^^ (polarity condition).2) = i.holds condition state := by
  unfold polarity
  split
  · rw [i.holds_not]
    exact Bool.xor_true _
  · exact Bool.xor_false _

theorem flow_eq_moveOf {body : List Op} {index : Nat} {instruction : Instruction}
    (h : (codeOf body)[index]? = some instruction) :
    flow body index = moveOf (fun target => markerIndex? body target.marker) index instruction := by
  obtain ⟨op, hop, rfl⟩ := exists_of_codeOf_getElem? h
  exact flowBy_eq hop

theorem moveOf_of_isInner {dest : Target → Option Nat} {index : Nat} {instruction : Instruction}
    (h : instruction.isInner = true) : moveOf dest index instruction = .act := by
  cases instruction with
  | removed | marker | jump | branch | ret => cases h
  | _ => rfl

theorem moveOf_of_isDeed {dest : Target → Option Nat} {index : Nat} {instruction : Instruction}
    (h : instruction.isDeed = true) : moveOf dest index instruction = .act := by
  cases instruction with
  | removed | marker | jump | branch | ret => cases h
  | _ => rfl

/-- Flat code with notes, and a meaning for what they name. The notes say at which op a primitive
statement or a test is complete, and so when the state changes. -/
structure Reading (σ : Type) where
  body : List Op
  notes : List (Option Note)
  meaning : Interpretation σ

namespace Reading

variable {σ : Type} {r : Reading σ}

/-- The note on the instruction at an index. -/
def noteAt (r : Reading σ) (index : Nat) : Option Note :=
  r.notes[index]?.join

/-- What carrying out an instruction does is what its note says.  A branch tests the
condition without a leading *not*. -/
def flatMeaning (r : Reading σ) : Meaning σ where
  act index state :=
    match r.noteAt index with
    | some (.statement stmt) => r.meaning.perform stmt state
    | _ => state
  holds index state :=
    match r.noteAt index with
    | some (.test condition) => r.meaning.holds (polarity condition).1 state
    | _ => false

/-- What an event is in the terms of statements. -/
def deed? (r : Reading σ) : Event → Option Deed
  | .act index =>
    match r.noteAt index with
    | some (.statement stmt) => some (.performed stmt)
    | _ => none
  | .test index outcome =>
    match r.noteAt index with
    | some (.test condition) => some (.tested condition (outcome ^^ (polarity condition).2))
    | _ => none

/-- The deeds among some events. -/
def deeds (r : Reading σ) (events : List Event) : List Deed :=
  events.filterMap r.deed?

/-- A run comes from an index and a state to others, in at least so many moves and with
certain deeds on the way. -/
def Comes (r : Reading σ) (least start : Nat) (state : σ) (next : Nat) (state' : σ)
    (deeds : List Deed) : Prop :=
  ∀ events, ∃ n more, least ≤ n ∧ r.deeds more = deeds ∧
    (flow r.body).run r.flatMeaning n ⟨start, state, events⟩ =
      some ⟨next, state', events ++ more⟩

theorem noteAt_eq {index : Nat} {note : Option Note} (h : r.notes[index]? = some note) :
    r.noteAt index = note := by
  unfold noteAt
  rw [h]
  rfl

namespace Comes

variable {i j k least least' : Nat} {state state' state'' : σ} {deeds deeds' : List Deed}

theorem refl (i : Nat) (state : σ) : r.Comes 0 i state i state [] := by
  intro events
  refine ⟨0, [], Nat.le_refl 0, rfl, ?_⟩
  rw [List.append_nil]
  rfl

/-- One run, and then another. -/
theorem trans (h : r.Comes least i state j state' deeds)
    (h' : r.Comes least' j state' k state'' deeds') :
    r.Comes (least + least') i state k state'' (deeds ++ deeds') := by
  intro events
  obtain ⟨n, more, hn, hdeeds, hrun⟩ := h events
  obtain ⟨n', more', hn', hdeeds', hrun'⟩ := h' (events ++ more)
  refine ⟨n + n', more ++ more', by omega, ?_, ?_⟩
  · unfold Reading.deeds at hdeeds hdeeds' ⊢
    rw [List.filterMap_append, hdeeds, hdeeds']
  · rw [Flow.run_add, hrun, ← List.append_assoc]
    exact hrun'

theorem weaken (h : r.Comes least i state j state' deeds) (hle : least' ≤ least) :
    r.Comes least' i state j state' deeds := by
  intro events
  obtain ⟨n, more, hn, hrest⟩ := h events
  exact ⟨n, more, by omega, hrest⟩

/-- A single move. -/
theorem step {more : List Event}
    (h : ∀ events, (flow r.body).step r.flatMeaning ⟨i, state, events⟩ =
      some ⟨j, state', events ++ more⟩) : r.Comes 1 i state j state' (r.deeds more) := by
  intro events
  refine ⟨1, more, Nat.le_refl 1, rfl, ?_⟩
  show ((flow r.body).step r.flatMeaning ⟨i, state, events⟩).bind _ = _
  rw [h events]
  rfl

theorem go (h : flow r.body i = .go j) (state : σ) : r.Comes 1 i state j state [] := by
  show r.Comes 1 i state j state (r.deeds [])
  refine step fun events => ?_
  unfold Flow.step
  rw [h, List.append_nil]

/-- A move over an instruction without a note. -/
theorem silent (h : flow r.body i = .act) (hnote : r.noteAt i = none) (state : σ) :
    r.Comes 1 i state (i + 1) state [] := by
  have hdeeds : r.deeds [.act i] = [] := by
    simp only [Reading.deeds, List.filterMap_cons, List.filterMap_nil, deed?, hnote]
  rw [← hdeeds]
  refine step fun events => ?_
  unfold Flow.step
  rw [h]
  simp only [flatMeaning, hnote]

/-- A move that completes a statement. -/
theorem perform {stmt : Stmt} (h : flow r.body i = .act)
    (hnote : r.noteAt i = some (.statement stmt)) (state : σ) :
    r.Comes 1 i state (i + 1) (r.meaning.perform stmt state) [.performed stmt] := by
  have hdeeds : r.deeds [.act i] = [.performed stmt] := by
    simp only [Reading.deeds, List.filterMap_cons, List.filterMap_nil, deed?, hnote]
  rw [← hdeeds]
  refine step fun events => ?_
  unfold Flow.step
  rw [h]
  simp only [flatMeaning, hnote]

/-- A move that decides a condition.  With a leading *not* the branch is turned around. -/
theorem test {condition : Expr} {expected : Bool} {next : Nat} (h : flow r.body i = .test expected next)
    (hnote : r.noteAt i = some (.test condition)) (state : σ) :
    r.Comes 1 i state
      (if r.meaning.holds condition state = (expected ^^ (polarity condition).2) then next
        else i + 1)
      state [.tested condition (r.meaning.holds condition state)] := by
  have hpolarity := holds_polarity r.meaning condition state
  have hdeeds : r.deeds [.test i (r.meaning.holds (polarity condition).1 state)] =
      [.tested condition (r.meaning.holds condition state)] := by
    simp only [Reading.deeds, List.filterMap_cons, List.filterMap_nil, deed?, hnote, hpolarity]
  have htaken : (r.meaning.holds condition state = (expected ^^ (polarity condition).2)) ↔
      (r.meaning.holds (polarity condition).1 state = expected) := by
    rw [← hpolarity]
    exact Bool.xor_left_inj
  rw [← hdeeds]
  refine step fun events => ?_
  unfold Flow.step
  rw [h]
  simp only [flatMeaning, hnote, htaken]

/-- A run over instructions that only compute values. -/
theorem inner {start : Nat} {code : List Instruction} (hcode : Stands (codeOf r.body) start code)
    (hnotes : Stands r.notes start (List.replicate code.length none))
    (hinner : ∀ x ∈ code, x.isInner = true) (state : σ) :
    r.Comes 0 start state (start + code.length) state [] := by
  induction code generalizing start with
  | nil => exact .refl start state
  | cons first rest ih =>
      obtain ⟨hfirst, hrest⟩ := stands_cons.mp hcode
      rw [List.length_cons, List.replicate_succ] at hnotes
      obtain ⟨hnote, hnotes⟩ := stands_cons.mp hnotes
      have hmove : flow r.body start = .act := by
        rw [flow_eq_moveOf hfirst]
        exact moveOf_of_isInner (hinner first List.mem_cons_self)
      have hstep := Comes.silent hmove (noteAt_eq hnote) state
      have hothers := ih hrest hnotes fun x hx => hinner x (List.mem_cons_of_mem _ hx)
      rw [List.length_cons, show start + (rest.length + 1) = start + 1 + rest.length by omega]
      exact (hstep.trans hothers).weaken (Nat.zero_le _)

end Comes

/-- The index to which a statement leads that is left in some way: the next one, or the
end or start of the innermost loop, or the return itself. -/
def Lands (r : Reading σ) (next : Nat) (loop : Option LoopMarkers) : Outcome → Nat → Prop
  | .done, index => index = next
  | .broke, index => ∃ markers marker, loop = some markers ∧
      markerIndex? r.body markers.bottom = some marker ∧ index = marker + 1
  | .continued, index => ∃ markers marker, loop = some markers ∧
      markerIndex? r.body markers.top = some marker ∧ index = marker + 1
  | .returned value, index =>
      r.noteAt index = some (.statement (.ret value)) ∧ flow r.body index = .stop
  | .cut, _ => True

/-- The moves that a statement takes at least: one for each round if it is cut off, and
one to go on with the next round. -/
def leastMoves (rounds : Nat) : Outcome → Nat
  | .cut => rounds
  | .continued => 1
  | _ => 0

/-- **A run takes the course of a statement**: it comes to where the statement leads, with
the state and the deeds of the course. -/
def Carries (r : Reading σ) (rounds start next : Nat) (loop : Option LoopMarkers) (state : σ)
    (c : Course σ) : Prop :=
  ∃ index, r.Comes (leastMoves rounds c.outcome) start state index c.state c.deeds ∧
    r.Lands next loop c.outcome index

namespace Carries

variable {rounds start middle next : Nat} {loop : Option LoopMarkers} {state state' : σ}
  {c : Course σ} {deeds : List Deed}

theorem after {least : Nat} (hbefore : r.Comes least start state middle state' deeds)
    (h : r.Carries rounds middle next loop state' c) :
    r.Carries rounds start next loop state (c.after deeds) := by
  obtain ⟨index, hcomes, hlands⟩ := h
  exact ⟨index, (hbefore.trans hcomes).weaken (Nat.le_add_left _ _), hlands⟩

/-- One course, and then another. -/
theorem andThen {f : σ → Course σ} (h : r.Carries rounds start middle loop state c)
    (hnext : ∀ state, r.Carries rounds middle next loop state (f state)) :
    r.Carries rounds start next loop state (c.andThen f) := by
  obtain ⟨index, hcomes, hlands⟩ := h
  obtain ⟨outcome, state', deeds⟩ := c
  cases outcome with
  | done =>
      cases hlands
      exact after hcomes (hnext state')
  | broke | continued | returned | cut => exact ⟨index, hcomes, hlands⟩

/-- More instructions at the end that do nothing. -/
theorem thenGo {least : Nat} (h : r.Carries rounds start middle loop state c)
    (hnext : ∀ state, r.Comes least middle state next state []) :
    r.Carries rounds start next loop state c := by
  obtain ⟨index, hcomes, hlands⟩ := h
  obtain ⟨outcome, state', deeds⟩ := c
  cases outcome with
  | done =>
      cases hlands
      have hboth := hcomes.trans (hnext state')
      rw [List.append_nil] at hboth
      exact ⟨next, hboth.weaken (Nat.zero_le _), rfl⟩
  | broke | continued | returned | cut => exact ⟨index, hcomes, hlands⟩

end Carries

/-- The index at which a function returns in some way. -/
def EndsAt (r : Reading σ) : Ending → Nat → Prop
  | .explicit value, index => r.noteAt index = some (.statement (.ret value))
  | .implicit, index => r.noteAt index = some .fallOff ∧ index + 1 = r.body.length

/-- **The runs of flat code follow a function.**  They stop where the function returns, with
the same state and deeds, and go on for ever if it does; and on the way they have the
deeds of the function. -/
structure Follows (r : Reading σ) (f : Model.Function) (state : σ) : Prop where
  ends : ∀ ending state' deeds, f.Ends r.meaning state ending state' deeds ↔
    ∃ c, (flow r.body).Stops r.flatMeaning (.start state) c ∧ r.EndsAt ending c.index ∧
      c.state = state' ∧ r.deeds c.events = deeds
  endless : f.Endless r.meaning state ↔ (flow r.body).Endless r.flatMeaning (.start state)
  does : ∀ deeds, f.Does r.meaning state deeds ↔
    ∃ c, (flow r.body).Reaches r.flatMeaning (.start state) c ∧ r.deeds c.events = deeds

/-- A function returns in one way at an index. -/
theorem EndsAt.unique {ending ending' : Ending} {index : Nat} (h : r.EndsAt ending index)
    (h' : r.EndsAt ending' index) : ending = ending' := by
  cases ending with
  | explicit value =>
      cases ending' with
      | explicit value' =>
          cases h.symm.trans h'
          rfl
      | implicit => cases h.symm.trans h'.1
  | implicit =>
      cases ending' with
      | explicit value => cases h.1.symm.trans h'
      | implicit => rfl

/-- Among the deeds of a run all first ones come up by themselves. -/
theorem exists_reaches_of_prefix {n : Nat} {deeds : List Deed} :
    ∀ {c c' : Config σ}, (flow r.body).run r.flatMeaning n c = some c' →
      r.deeds c.events <+: deeds → deeds <+: r.deeds c'.events →
      ∃ middle, (flow r.body).Reaches r.flatMeaning c middle ∧ r.deeds middle.events = deeds := by
  induction n with
  | zero =>
      intro c c' hrun hlow hhigh
      cases hrun
      exact ⟨c, .refl c, hlow.eq_of_length_le hhigh.length_le⟩
  | succ n ih =>
      intro c c' hrun hlow hhigh
      by_cases hsame : r.deeds c.events = deeds
      · exact ⟨c, .refl c, hsame⟩
      · obtain ⟨next, hnext, hrest⟩ := Option.bind_eq_some_iff.mp hrun
        -- a move adds at most one deed, and at least one is missing
        have hstep : r.deeds next.events <+: deeds := by
          obtain ⟨more, hmore, hone⟩ := Flow.events_of_step hnext
          have hrest' : r.deeds next.events <+: r.deeds c'.events :=
            (Flow.Reaches.events_prefix ⟨n, hrest⟩).filterMap r.deed?
          refine List.prefix_of_prefix_length_le hrest' hhigh ?_
          have hshort : (r.deeds c.events).length < deeds.length := by
            rcases Nat.lt_or_ge (r.deeds c.events).length deeds.length with hlt | hge
            · exact hlt
            · exact absurd (hlow.eq_of_length_le hge) hsame
          have hadded : (r.deeds next.events).length ≤ (r.deeds c.events).length + more.length := by
            unfold Reading.deeds
            rw [hmore, List.filterMap_append, List.length_append]
            exact Nat.add_le_add_left (List.length_filterMap_le _ _) _
          omega
        obtain ⟨middle, hmiddle, hdeeds⟩ := ih hrest hstep hhigh
        exact ⟨middle, .trans (.step hnext) hmiddle, hdeeds⟩

/-- A run takes the course of a function whose loops are cut off after some rounds. -/
def Tracks (r : Reading σ) (f : Model.Function) (rounds : Nat) (state : σ) : Prop :=
  ∃ index, r.Comes (leastMoves rounds (courseAll r.meaning rounds f.body state).outcome) 0 state
      index (courseAll r.meaning rounds f.body state).state
      (courseAll r.meaning rounds f.body state).deeds ∧
    ((courseAll r.meaning rounds f.body state).outcome = .cut ∨
      ∃ ending, (courseAll r.meaning rounds f.body state).outcome = ending.outcome ∧
        r.EndsAt ending index ∧ flow r.body index = .stop)

section Following

variable {f : Model.Function} {rounds : Nat} {state : σ}

/-- Outside of loops a course ends at a return or leads to the end. -/
theorem tracks_of_carries {next : Nat}
    (h : r.Carries rounds 0 next none state (courseAll r.meaning rounds f.body state))
    (hdone : (courseAll r.meaning rounds f.body state).outcome = .done →
      r.EndsAt .implicit next ∧ flow r.body next = .stop) : r.Tracks f rounds state := by
  obtain ⟨index, hcomes, hlands⟩ := h
  refine ⟨index, hcomes, ?_⟩
  generalize courseAll r.meaning rounds f.body state = c at hlands hdone
  obtain ⟨outcome, state', deeds⟩ := c
  cases outcome with
  | done =>
      cases hlands
      exact .inr ⟨.implicit, rfl, hdone rfl⟩
  | broke | continued =>
      obtain ⟨markers, marker, hnone, _⟩ := hlands
      cases hnone
  | returned value => exact .inr ⟨.explicit value, rfl, hlands⟩
  | cut => exact .inl rfl

/-- A function that is cut off keeps a run busy. -/
theorem Tracks.busy (h : r.Tracks f rounds state)
    (hcut : (courseAll r.meaning rounds f.body state).outcome = .cut) :
    ∃ n c, rounds ≤ n ∧ (flow r.body).run r.flatMeaning n (.start state) = some c ∧
      r.deeds c.events = (courseAll r.meaning rounds f.body state).deeds := by
  obtain ⟨index, hcomes, _⟩ := h
  obtain ⟨n, more, hn, hdeeds, hrun⟩ := hcomes []
  rw [hcut] at hn
  exact ⟨n, _, hn, hrun, hdeeds⟩

/-- Where a function returns a run stops. -/
theorem Tracks.stops (h : r.Tracks f rounds state)
    (hcut : (courseAll r.meaning rounds f.body state).outcome ≠ .cut) :
    ∃ ending c, (courseAll r.meaning rounds f.body state).outcome = ending.outcome ∧
      (flow r.body).Stops r.flatMeaning (.start state) c ∧ r.EndsAt ending c.index ∧
      c.state = (courseAll r.meaning rounds f.body state).state ∧
      r.deeds c.events = (courseAll r.meaning rounds f.body state).deeds := by
  obtain ⟨index, hcomes, hend⟩ := h
  obtain ⟨ending, hending, hat, hstop⟩ := hend.resolve_left hcut
  obtain ⟨n, more, _, hdeeds, hrun⟩ := hcomes []
  exact ⟨ending, _, hending, ⟨⟨n, hrun⟩, Flow.step_eq_none hstop⟩, hat, rfl, hdeeds⟩

/-- A function goes on for ever exactly if its run does. -/
theorem endless_iff_of_tracks (h : ∀ rounds, r.Tracks f rounds state) :
    f.Endless r.meaning state ↔ (flow r.body).Endless r.flatMeaning (.start state) := by
  constructor
  · intro hendless n
    obtain ⟨k, c, hk, hrun, _⟩ := (h n).busy (hendless n)
    obtain ⟨middle, hmiddle, _⟩ := Flow.reaches_of_le hk hrun
    exact ⟨middle, hmiddle⟩
  · intro hendless rounds
    by_cases hcut : (courseAll r.meaning rounds f.body state).outcome = .cut
    · exact hcut
    · obtain ⟨_, c, _, hstops, _⟩ := (h rounds).stops hcut
      exact absurd ⟨c, hstops⟩ ((Flow.endless_iff _).mp hendless)

/-- **Runs that take the courses of a function follow it.**  There is one run only, so what
it does is what the function does. -/
theorem follows_of_tracks (h : ∀ rounds, r.Tracks f rounds state) : r.Follows f state := by
  have hendless := endless_iff_of_tracks h
  refine ⟨?_, hendless, ?_⟩
  · intro ending state' deeds
    constructor
    · rintro ⟨rounds, hcourse⟩
      have hcut : (courseAll r.meaning rounds f.body state).outcome ≠ .cut := by
        rw [hcourse]
        exact ending.outcome_ne_cut
      obtain ⟨ending', c, hending, hstops, hat, hstate, hdeeds⟩ := (h rounds).stops hcut
      rw [hcourse] at hending hstate hdeeds
      exact ⟨c, hstops, Ending.outcome_inj hending ▸ hat, hstate, hdeeds⟩
    · rintro ⟨c, hstops, hat, rfl, rfl⟩
      have hexists : ∃ rounds, (courseAll r.meaning rounds f.body state).outcome ≠ .cut := by
        apply Classical.byContradiction
        intro hnone
        have hall : f.Endless r.meaning state := fun rounds =>
          Classical.not_not.mp fun hcut => hnone ⟨rounds, hcut⟩
        exact (Flow.endless_iff _).mp (hendless.mp hall) ⟨c, hstops⟩
      obtain ⟨rounds, hcut⟩ := hexists
      obtain ⟨ending', c', hending, hstops', hat', hstate, hdeeds⟩ := (h rounds).stops hcut
      have hsame := hstops.unique hstops'
      subst hsame
      refine ⟨rounds, ?_⟩
      rw [hat.unique hat', ← hending, hstate, hdeeds]
  · intro deeds
    constructor
    · rintro ⟨rounds, hdeeds⟩
      obtain ⟨index, hcomes, _⟩ := h rounds
      obtain ⟨n, more, _, hmore, hrun⟩ := hcomes []
      exact exists_reaches_of_prefix hrun (List.nil_prefix) (hmore ▸ hdeeds)
    · rintro ⟨c, ⟨n, hn⟩, rfl⟩
      refine ⟨n, ?_⟩
      by_cases hcut : (courseAll r.meaning n f.body state).outcome = .cut
      · obtain ⟨k, last, hk, hrun, hdeeds⟩ := (h n).busy hcut
        obtain ⟨middle, hmiddle, hrest⟩ := Flow.reaches_of_le hk hrun
        rw [hn] at hmiddle
        cases hmiddle
        rw [← hdeeds]
        exact hrest.events_prefix.filterMap r.deed?
      · obtain ⟨_, last, _, hstops, _, _, hdeeds⟩ := (h n).stops hcut
        rw [← hdeeds]
        rcases Flow.Reaches.total ⟨n, hn⟩ hstops.1 with hrest | hback
        · exact hrest.events_prefix.filterMap r.deed?
        · have hsame := Flow.eq_of_reaches hstops.2 hback
          subst hsame
          exact List.prefix_rfl

end Following

end Reading

end Stackless.Flat
