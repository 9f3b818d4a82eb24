import Stackless.Proofs.Lowering
import Stackless.Proofs.Settling

/-!
# When simplification fails

A round of simplification looks up the markers that jumps name, and nothing else of it can fail.

* `exists_round_later` — after markers could be looked up once, every later round succeeds: whatever
  the names of markers are, none is taken out that a jump still goes to;
* `simplification_fails_iff` — simplification fails just if an op of the function goes astray, and
  blames the first one that does; in functions of a flattened program none does.
-/

namespace Stackless.Flat

open Relation (ReflTransGen)

section Rounds

variable {body later : List Op} {label : String}

/-- A body whose markers can be looked up has a round. -/
theorem exists_round {resolved : List Op} (h : resolve label body = .ok resolved) :
    ∃ next, round label body = .ok next :=
  ⟨_, bind_eq_ok.mpr ⟨resolved, h, rfl⟩⟩

/-- Where jumps know their markers these can be looked up. -/
theorem Resolved.exists_resolve (h : Resolved body) (label : String) :
    ∃ resolved, resolve label body = .ok resolved :=
  Flat.exists_resolve label fun target haims => by
    obtain ⟨index, _, hmarks⟩ := h target haims
    exact ⟨index, hmarks⟩

/-- **No later round fails.**  Once all names have been resolved, every target has its marker, and a
round takes no marker out that something still goes to. -/
theorem exists_round_later {resolved : List Op} (h : resolve label body = .ok resolved)
    (hrounds : ReflTransGen (fun body next => round label body = .ok next) body later) :
    ∃ next, round label later = .ok next := by
  cases hrounds with
  | refl => exact exists_round h
  | tail _ hround =>
      obtain ⟨resolved', hresolve⟩ := (round_resolved hround).exists_resolve label
      exact exists_round hresolve

/-- Rounds that start well end well. -/
theorem exists_settle {resolved : List Op} (h : resolve label body = .ok resolved) (fuel : Nat) :
    ∃ out, settle label fuel body = .ok out := by
  induction fuel generalizing body resolved with
  | zero => exact ⟨body, rfl⟩
  | succ fuel ih =>
      obtain ⟨next, hround⟩ := exists_round h
      rw [settle_succ hround]
      split
      · exact ⟨next, rfl⟩
      · obtain ⟨resolved', hresolve⟩ := (round_resolved hround).exists_resolve label
        exact ih hresolve

end Rounds

theorem exists_simplify_of_resolve {f : Function} {resolved : List Op} (hclosed : Closed f.body)
    (h : resolve f.label f.body = .ok resolved) : ∃ g, f.simplify = .ok g := by
  obtain ⟨out, hsettle⟩ := exists_settle h (roundLimit f.body)
  exact ⟨_, simplify_of_settle hsettle ((settle_trims hsettle).closed hclosed)⟩

/-- If they cannot, that is how simplification fails. -/
theorem simplify_of_resolve_error {f : Function} {error : Located CompileError}
    (h : resolve f.label f.body = .error error) : f.simplify = .error (.error error) := by
  have hround : round f.label f.body = .error error := bind_eq_error.mpr (.inl h)
  have hsettle : settle f.label (roundLimit f.body) f.body = .error error :=
    (Rounds.fails hround).settle_eq (show 1 ≤ roundLimit f.body by unfold roundLimit; omega)
  unfold Function.simplify
  rw [hsettle]
  rfl

/-- Where an op goes astray, markers cannot be looked up. -/
theorem Astray.exists_error {body : List Op} {i : Nat} {target : Target}
    (h : Astray body i target) (label : String) : ∃ error, resolve label body = .error error := by
  obtain ⟨⟨op, hop, htarget⟩, hnowhere⟩ := h
  cases hresolve : resolve label body with
  | error error => exact ⟨error, rfl⟩
  | ok resolved =>
      obtain ⟨_, index, hmarks, _⟩ := (resolves_of_resolve hresolve).target i op target hop htarget
      exact absurd hmarks (hnowhere index)

/-- **Simplification blames the first op that goes astray.**  It can only be in the first round,
since later rounds do not fail. -/
theorem exists_of_simplify_eq_error {f : Function} {failure : Failure} (hclosed : Closed f.body)
    (h : f.simplify = .error failure) :
    ∃ (i : Nat) (op : Op) (target : Target), f.body[i]? = some op ∧
      op.instruction.target? = some target ∧ Astray f.body i target ∧
      (∀ j other, j < i → ¬Astray f.body j other) ∧
      failure = .error ⟨op.position, .internal f.label i (.undefinedMarker target.marker)⟩ := by
  cases hresolve : resolve f.label f.body with
  | ok resolved =>
      obtain ⟨g, hg⟩ := exists_simplify_of_resolve hclosed hresolve
      rw [h] at hg
      cases hg
  | error error =>
      rw [simplify_of_resolve_error hresolve] at h
      cases h
      obtain ⟨i, op, target, hop, htarget, hastray, hfirst, rfl⟩ :=
        exists_of_resolve_eq_error hresolve
      exact ⟨i, op, target, hop, htarget, hastray, hfirst, rfl⟩

/-- **Simplification fails just on markers that stand nowhere.**  Take any function whose operands
are indices of its body, whatever the names of its markers.  Simplifying it fails if and only if
some jump or branch, in dead code too, names a marker that stands nowhere behind the entry; and
then it fails with an internal error at the index and position of the first such op.  Once the
markers have been looked up, no later round fails, however many there are.  The functions of a
flattened program can therefore always be simplified. -/
theorem simplification_fails_iff :
    (∀ f : Function, Closed f.body →
      ((∃ failure, f.simplify = .error failure) ↔ ∃ i target, Astray f.body i target) ∧
      (∀ failure, f.simplify = .error failure → ∃ (i : Nat) (op : Op) (target : Target),
        f.body[i]? = some op ∧ op.instruction.target? = some target ∧ Astray f.body i target ∧
        (∀ j other, j < i → ¬Astray f.body j other) ∧
        failure = .error ⟨op.position, .internal f.label i (.undefinedMarker target.marker)⟩) ∧
      ∀ resolved later, resolve f.label f.body = .ok resolved →
        ReflTransGen (fun body next => round f.label body = .ok next) f.body later →
        ∃ next, round f.label later = .ok next) ∧
    ∀ model flat, Program.ofModel model = .ok flat → ∃ simple, flat.simplify = .ok simple := by
  refine ⟨fun f hclosed => ⟨⟨?_, ?_⟩, fun _ => exists_of_simplify_eq_error hclosed,
    fun _ _ => exists_round_later⟩, fun _ _ => exists_simplified⟩
  · rintro ⟨failure, hfails⟩
    obtain ⟨i, _, target, _, _, hastray, _⟩ := exists_of_simplify_eq_error hclosed hfails
    exact ⟨i, target, hastray⟩
  · rintro ⟨i, target, hastray⟩
    obtain ⟨error, hresolve⟩ := hastray.exists_error f.label
    exact ⟨_, simplify_of_resolve_error hresolve⟩

/-- A function with two markers of one name that goes back to its entry behind a return. -/
def reentering : Function where
  label := "f"
  body := opsAt none [
    .marker "f",
    .jump { marker := "twice" },
    .marker "twice",
    .ret none,
    .jump { marker := "f" },
    .marker "twice",
    .jump { marker := "gone" }]

/-- The entry is no marker to go to, and names that stand twice do no harm. -/
theorem simplification_fails_iff_reentering :
    Closed reentering.body ∧ Astray reentering.body 4 { marker := "f" } ∧
    (∃ failure, reentering.simplify = .error failure ∧ ∃ i op target,
      reentering.body[i]? = some op ∧ op.instruction.target? = some target ∧
      (∀ j other, j < i → ¬Astray reentering.body j other) ∧
      failure = .error ⟨op.position, .internal "f" i (.undefinedMarker target.marker)⟩) ∧
    (∃ resolved next, resolve "f" circling.body = .ok resolved ∧
      round "f" circling.body = .ok next ∧ ∃ after, round "f" next = .ok after) ∧
    ∃ flat simple, Program.ofModel nestedLoopsProgram = .ok flat ∧
      flat.simplify = .ok simple := by
  obtain ⟨hfunctions, hprograms⟩ := simplification_fails_iff
  have hclosed : Closed reentering.body := by decide
  have hastray : Astray reentering.body 4 { marker := "f" } := by
    have hnowhere : ∀ index, index < 7 → ¬Marks reentering.body index "f" := by decide
    refine ⟨⟨_, rfl, rfl⟩, fun index hmarks => hnowhere index ?_ hmarks⟩
    obtain ⟨_, op, hop, _⟩ := hmarks
    exact (List.getElem?_eq_some_iff.mp hop).1
  obtain ⟨hiff, hblames, _⟩ := hfunctions reentering hclosed
  obtain ⟨failure, hfails⟩ := hiff.mpr ⟨4, _, hastray⟩
  obtain ⟨i, op, target, hop, htarget, _, hfirst, heq⟩ := hblames failure hfails
  refine ⟨hclosed, hastray, ⟨failure, hfails, i, op, target, hop, htarget, hfirst, heq⟩, ?_, ?_⟩
  · have hresolves : (resolve "f" circling.body).toOption.isSome = true := by decide +kernel
    obtain ⟨resolved, hresolve⟩ := Option.isSome_iff_exists.mp hresolves
    have hresolve := toOption_eq_some.mp hresolve
    obtain ⟨_, _, hlater⟩ := hfunctions circling (by decide)
    obtain ⟨next, hround⟩ := hlater resolved _ hresolve .refl
    exact ⟨resolved, next, hresolve, hround, hlater resolved _ hresolve (.single hround)⟩
  · have hsome : (Program.ofModel nestedLoopsProgram).toOption.isSome = true := by decide +kernel
    obtain ⟨flat, hflat⟩ := Option.isSome_iff_exists.mp hsome
    have hflat := toOption_eq_some.mp hflat
    obtain ⟨simple, hsimple⟩ := hprograms _ flat hflat
    exact ⟨flat, simple, hflat, hsimple⟩

end Stackless.Flat
