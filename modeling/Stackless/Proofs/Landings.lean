import Stackless.Proofs.Runs

/-!
# Markers, and where jumps land

A jump names a marker, and markers may stand next to one another.  Such a run of
markers shrinks to its first one, its **head**, and every jump into the run is sent
to the head.

* `Pointed` — every jump names exactly one marker behind the entry;
* `Distinct` — no two markers behind the entry have one name;
* `HeadsApart` — no two runs into which jumps lead have heads of one name;
* `Resolves` — what resolving does to a body, op by op;
* `sameRuns_resolve` — a pointed body and the resolved one have the same runs, if
  in the latter jumps go by their indices.

The head of a run is found by a walk from the front (`runBefore_spec`), and by its
name from the end (`landingOf?_eq_some`); both find what `Heads` says.
-/

namespace Stackless.Flat

/-- A marker with a name stands at an index behind the entry. The entry itself is the target of
calls and not of jumps. -/
def Marks (body : List Op) (index : Nat) (name : String) : Prop :=
  1 ≤ index ∧ ∃ op, body[index]? = some op ∧ op.instruction = .marker name

/-- Some op of the body goes to a target. -/
def Aims (body : List Op) (target : Target) : Prop :=
  ∃ op ∈ body, op.instruction.target? = some target

/-- Whether nothing happens at an instruction, and the next one follows. Runs of markers may have
such gaps where something was taken out. -/
def Instruction.isLoose (instruction : Instruction) : Bool :=
  instruction.isRemoved || instruction.isMarker

/-- The marker at `first` is the head of the run of markers in which `index` stands. -/
structure Heads (body : List Op) (first index : Nat) : Prop where
  le : first ≤ index
  loose : ∀ (k : Nat) op, first < k → k < index → body[k]? = some op →
    op.instruction.isLoose = true
  leading : ∀ k name, Marks body k name → k < first →
    ∃ (l : Nat) (op : Op), k < l ∧ l < first ∧ body[l]? = some op ∧ op.instruction.isLoose = false

/-- Every op that goes somewhere names exactly one marker behind the entry. It is what lowering
gives and what every round of the simplification keeps. -/
def Pointed (body : List Op) : Prop :=
  ∀ target, Aims body target →
    ∃ index, Marks body index target.marker ∧
      ∀ other, Marks body other target.marker → other = index

/-- The heads of two runs into which ops go have different names. A second round looks heads up by
name, and with two of one name it would send a jump to the wrong one. -/
def HeadsApart (body : List Op) : Prop :=
  ∀ target target', Aims body target → Aims body target' → ∀ index index' first first' name,
    Marks body index target.marker → Marks body index' target'.marker →
    Heads body first index → Heads body first' index' →
    Marks body first name → Marks body first' name → first = first'

/-- No two markers behind the entry have one name. -/
def Distinct (body : List Op) : Prop :=
  ∀ index index' name, Marks body index name → Marks body index' name → index = index'

section Deciding

variable {body : List Op}

/-- Whether a marker stands at an index is a matter of the instruction there. -/
theorem marks_iff {index : Nat} {name : String} :
    Marks body index name ↔ 1 ≤ index ∧ (codeOf body)[index]? = some (.marker name) := by
  constructor
  · rintro ⟨hpos, op, hop, hinstr⟩
    refine ⟨hpos, ?_⟩
    rw [codeOf_getElem? hop, hinstr]
  · rintro ⟨hpos, h⟩
    exact ⟨hpos, exists_of_codeOf_getElem? h⟩

theorem Marks.lt_length {index : Nat} {name : String} (h : Marks body index name) :
    index < body.length := by
  obtain ⟨_, op, hop, _⟩ := h
  exact (List.getElem?_eq_some_iff.mp hop).1

instance (index : Nat) (name : String) : Decidable (Marks body index name) :=
  decidable_of_iff _ marks_iff.symm

/-- Whether a body is pointed can be seen from its ops and indices. -/
theorem pointed_iff : Pointed body ↔
    ∀ op ∈ body, ∀ target ∈ op.instruction.target?, ∃ index, index < body.length ∧
      Marks body index target.marker ∧
      ∀ other, other < body.length → Marks body other target.marker → other = index := by
  constructor
  · intro h op hop target htarget
    obtain ⟨index, hmarks, honly⟩ := h target ⟨op, hop, htarget⟩
    exact ⟨index, hmarks.lt_length, hmarks, fun other _ => honly other⟩
  · rintro h target ⟨op, hop, htarget⟩
    obtain ⟨index, _, hmarks, honly⟩ := h op hop target htarget
    exact ⟨index, hmarks, fun other hother => honly other hother.lt_length hother⟩

instance : Decidable (Pointed body) :=
  decidable_of_iff _ pointed_iff.symm

/-- Whether markers are distinct can be seen from the instructions. -/
theorem distinct_iff : Distinct body ↔
    ∀ index, index < body.length → ∀ index', index' < body.length →
      1 ≤ index ∧ 1 ≤ index' ∧ (codeOf body)[index]?.any Instruction.isMarker = true ∧
        (codeOf body)[index]? = (codeOf body)[index']? → index = index' := by
  constructor
  · rintro h index _ index' _ ⟨hpos, hpos', hany, hsame⟩
    obtain ⟨instruction, hinstr, hmarker⟩ := (Option.any_eq_true _ _).mp hany
    cases instruction with
    | marker name =>
        have hmarks : Marks body index name := marks_iff.mpr ⟨hpos, hinstr⟩
        exact h index index' name hmarks (marks_iff.mpr ⟨hpos', hsame ▸ hinstr⟩)
    | _ => cases hmarker
  · intro h index index' name hmarks hmarks'
    obtain ⟨hpos, hinstr⟩ := marks_iff.mp hmarks
    obtain ⟨hpos', hinstr'⟩ := marks_iff.mp hmarks'
    refine h index hmarks.lt_length index' hmarks'.lt_length ⟨hpos, hpos', ?_, ?_⟩
    · rw [hinstr]
      rfl
    · rw [hinstr, hinstr']

instance : Decidable (Distinct body) :=
  decidable_of_iff _ distinct_iff.symm

/-- Where ops go is a matter of the instructions. -/
theorem aims_iff {target : Target} :
    Aims body target ↔ ∃ x ∈ codeOf body, x.target? = some target := by
  constructor
  · rintro ⟨op, hop, htarget⟩
    exact ⟨op.instruction, List.mem_map_of_mem hop, htarget⟩
  · rintro ⟨x, hx, htarget⟩
    obtain ⟨op, hop, rfl⟩ := List.mem_map.mp hx
    exact ⟨op, hop, htarget⟩

theorem Distinct.of_codeOf_eq {body' : List Op} (h : Distinct body)
    (heq : codeOf body' = codeOf body) : Distinct body' := by
  intro index index' name hindex hindex'
  rw [marks_iff, heq] at hindex hindex'
  exact h index index' name (marks_iff.mpr hindex) (marks_iff.mpr hindex')

theorem Pointed.of_codeOf_eq {body' : List Op} (h : Pointed body)
    (heq : codeOf body' = codeOf body) : Pointed body' := by
  intro target haims
  rw [aims_iff, heq] at haims
  obtain ⟨index, hmarks, honly⟩ := h target (aims_iff.mpr haims)
  rw [marks_iff, ← heq] at hmarks
  refine ⟨index, marks_iff.mpr hmarks, fun other hother => honly other ?_⟩
  rw [marks_iff, heq] at hother
  exact marks_iff.mpr hother

end Deciding

section Finding

variable {body : List Op}

/-- The one marker of a name is found. -/
theorem markerIndex?_eq_some {name : String} {index : Nat} (h : Marks body index name)
    (honly : ∀ other, Marks body other name → other = index) :
    markerIndex? body name = some index := by
  obtain ⟨hpos, op, hop, hinstr⟩ := h
  obtain ⟨n, rfl⟩ : ∃ n, index = n + 1 := ⟨index - 1, by omega⟩
  have hat : ∀ k : Nat, body.tail[k]? = body[k + 1]? := fun k => List.getElem?_tail
  have hlt : n < body.tail.length := by
    rw [← hat] at hop
    exact (List.getElem?_eq_some_iff.mp hop).1
  unfold markerIndex?
  have hfind : (body.tail.findIdx? fun op => decide (op.instruction = .marker name)) = some n := by
    refine List.findIdx?_eq_some_iff_getElem.mpr ⟨hlt, ?_, fun k hk hmarker => ?_⟩
    · have hsome := List.getElem?_eq_getElem hlt
      rw [hat, hop] at hsome
      rw [← Option.some.inj hsome]
      exact decide_eq_true hinstr
    · have hlt' : k < body.tail.length := by omega
      have hmarks : Marks body (k + 1) name := by
        refine ⟨by omega, body.tail[k], ?_, of_decide_eq_true hmarker⟩
        rw [← hat]
        exact List.getElem?_eq_getElem hlt'
      have := honly (k + 1) hmarks
      omega
  rw [hfind]
  rfl

/-- Of distinct markers each is found by its name. -/
theorem Distinct.markerIndex?_eq {index : Nat} {name : String} (h : Distinct body)
    (hmarks : Marks body index name) : markerIndex? body name = some index :=
  markerIndex?_eq_some hmarks fun other hother => h other index name hother hmarks

/-- What follows an op continues the run as the op says. -/
theorem runBefore_succ (run : Option Landing) (index : Nat) {ops : List Op} {n : Nat} {op : Op}
    (h : ops[n]? = some op) :
    runBefore run index ops (n + 1) = landingAt (runBefore run index ops n) (index + n) op := by
  induction n generalizing run index ops with
  | zero =>
      cases ops with
      | nil => cases h
      | cons first rest =>
          cases h
          simp only [runBefore, Nat.add_zero]
  | succ n ih =>
      cases ops with
      | nil => cases h
      | cons first rest =>
          have hrest := ih (landingAt run index first) (index + 1) (show rest[n]? = some op from h)
          rw [show index + 1 + n = index + (n + 1) by omega] at hrest
          exact hrest

/-- What a walk over a body knows about the run of markers in front of an index. -/
def RunAt (body : List Op) (index : Nat) : Option Landing → Prop
  | none => ∀ k name, Marks body k name → k < index →
      ∃ (l : Nat) (op : Op), k < l ∧ l < index ∧ body[l]? = some op ∧
        op.instruction.isLoose = false
  | some landing => Marks body landing.index landing.name ∧ landing.index < index ∧
      Heads body landing.index index

/-- A marker in front of an op or at it is in front of it, if the op is no marker. -/
theorem Marks.lt_of_plain {index k : Nat} {name : String} {op : Op} (h : Marks body k name)
    (hk : k < index + 1) (hop : body[index]? = some op) (hmarker : op.instruction.isMarker = false) :
    k < index := by
  have hne : k ≠ index := by
    rintro rfl
    obtain ⟨_, op', hop', hinstr⟩ := h
    rw [hop] at hop'
    cases hop'
    rw [hinstr] at hmarker
    cases hmarker
  omega

/-- A run goes on past a loose op. -/
theorem Heads.past {first index : Nat} {op : Op} (h : Heads body first index) (hlt : first < index)
    (hop : body[index]? = some op) (hloose : op.instruction.isLoose = true) :
    Heads body first (index + 1) := by
  refine ⟨by omega, fun k op' hfirst hk hop' => ?_, h.leading⟩
  by_cases hbefore : k < index
  · exact h.loose k op' hfirst hbefore hop'
  · obtain rfl : k = index := by omega
    rw [hop] at hop'
    cases hop'
    exact hloose

/-- **One op further.**  A walk that knows the run in front of an op knows the one behind it. -/
theorem RunAt.step {index : Nat} {run : Option Landing} {op : Op} (h : RunAt body index run)
    (hindex : 0 < index) (hop : body[index]? = some op) :
    RunAt body (index + 1) (landingAt run index op) := by
  have hon : op.instruction.isLoose = true → ∀ {landing : Landing},
      RunAt body index (some landing) → RunAt body (index + 1) (some landing) := by
    rintro hloose landing ⟨hmarks, hlt, hheads⟩
    exact ⟨hmarks, by omega, hheads.past hlt hop hloose⟩
  rw [landingAt]
  cases hinstr : op.instruction with
  | removed =>
      cases run with
      | none =>
          intro k name hmarks hk
          obtain ⟨l, op', hkl, hl, hrest⟩ :=
            h k name hmarks (hmarks.lt_of_plain hk hop (by rw [hinstr]; rfl))
          exact ⟨l, op', hkl, by omega, hrest⟩
      | some landing => exact hon (by rw [hinstr]; rfl) h
  | marker name =>
      cases run with
      | none =>
          refine ⟨⟨hindex, op, hop, hinstr⟩, Nat.lt_succ_self index, Nat.le_succ index, ?_, h⟩
          intro k op' hlow hhigh
          simp only [Option.getD_none] at hlow
          omega
      | some landing => exact hon (by rw [hinstr]; rfl) h
  | _ =>
      intro k name hmarks hk
      have hlt := hmarks.lt_of_plain hk hop (by rw [hinstr]; rfl)
      exact ⟨index, op, hlt, Nat.lt_succ_self index, hop, by rw [hinstr]; rfl⟩

/-- **The walk finds the heads.**  At every index it knows the marker that leads the run which comes
up to there, whatever was taken out within the run. -/
theorem runBefore_spec {n : Nat} (h : n < body.length) :
    RunAt body (n + 1) (runBefore none 1 body.tail n) := by
  induction n with
  | zero =>
      have hnone : runBefore none 1 body.tail 0 = none := by
        simp only [runBefore]
      rw [hnone]
      intro k name hmarks hk
      have := hmarks.1
      omega
  | succ n ih =>
      have hop : body[n + 1]? = some body[n + 1] := List.getElem?_eq_getElem h
      have htail : body.tail[n]? = some body[n + 1] := by
        rw [List.getElem?_tail]
        exact hop
      rw [runBefore_succ none 1 htail, Nat.add_comm 1 n]
      exact (ih (by omega)).step (Nat.succ_pos n) hop

/-- A name that leads somewhere leads to the head of the run of a marker of that name,
or to the marker itself. -/
theorem landingOf?_eq_some {name : String} {landing : Landing} {run : Option Landing} {index : Nat}
    {ops : List Op} (h : landingOf? name run index ops = some landing) :
    ∃ (n : Nat) (op : Op), ops[n]? = some op ∧ op.instruction = .marker name ∧
      landing = (runBefore run index ops n).getD ⟨index + n, name⟩ := by
  induction ops generalizing run index with
  | nil => cases h
  | cons first rest ih =>
      rw [landingOf?] at h
      split at h
      · rename_i found hfound
        cases h
        obtain ⟨n, op, hop, hinstr, heq⟩ := ih hfound
        refine ⟨n + 1, op, hop, hinstr, ?_⟩
        rw [show index + (n + 1) = index + 1 + n by omega]
        exact heq
      · split at h
        · rename_i hinstr
          refine ⟨0, first, rfl, hinstr, ?_⟩
          unfold landingAt at h
          rw [hinstr] at h
          cases h
          simp only [runBefore, Nat.add_zero]
        · cases h

/-- The name of a marker leads somewhere. -/
theorem landingOf?_ne_none {name : String} {run : Option Landing} {index n : Nat} {ops : List Op}
    {op : Op} (hop : ops[n]? = some op) (hinstr : op.instruction = .marker name) :
    landingOf? name run index ops ≠ none := by
  induction ops generalizing run index n with
  | nil => cases hop
  | cons first rest ih =>
      rw [landingOf?]
      split
      · nofun
      · rename_i hnone
        cases n with
        | zero =>
            cases hop
            rw [if_pos hinstr]
            unfold landingAt
            rw [hinstr]
            nofun
        | succ n => exact absurd hnone (ih (show rest[n]? = some op from hop))

/-- **A landing is the head of a run.** -/
theorem landing_spec {name : String} {landing : Landing}
    (h : landingOf? name none 1 body.tail = some landing) :
    ∃ index, Marks body index name ∧ Heads body landing.index index ∧
      Marks body landing.index landing.name := by
  obtain ⟨n, op, hop, hinstr, heq⟩ := landingOf?_eq_some h
  rw [List.getElem?_tail] at hop
  have hlt := (List.getElem?_eq_some_iff.mp hop).1
  have hmarks : Marks body (n + 1) name := ⟨by omega, op, hop, hinstr⟩
  have hrun := runBefore_spec (show n < body.length by omega)
  generalize runBefore none 1 body.tail n = run at hrun heq
  refine ⟨n + 1, hmarks, ?_⟩
  cases run with
  | none =>
      rw [Option.getD_none, show 1 + n = n + 1 by omega] at heq
      rw [heq]
      refine ⟨⟨Nat.le_refl _, fun k op hlow hhigh => ?_, hrun⟩, hmarks⟩
      have hlow : n + 1 < k := hlow
      omega
  | some found =>
      rw [Option.getD_some] at heq
      rw [heq]
      exact ⟨hrun.2.2, hrun.1⟩

/-- A head continues no run. -/
theorem runBefore_eq_none {first index : Nat} (h : Heads body (first + 1) index)
    (hlt : first < body.length) : runBefore none 1 body.tail first = none := by
  have hrun := runBefore_spec hlt
  cases hbefore : runBefore none 1 body.tail first with
  | none => rfl
  | some landing =>
      rw [hbefore] at hrun
      obtain ⟨hmarks, hbelow, hheads⟩ := hrun
      obtain ⟨l, op, hkl, hl, hop, hsolid⟩ := h.leading _ _ hmarks hbelow
      rw [hheads.loose l op hkl hl hop] at hsolid
      cases hsolid

end Finding

section Resolving

variable {body out : List Op}

/-- What resolving does to a body. Every op that goes somewhere learns the name and the index of the
head of the run that it goes into; the other markers of the run may go, the heads stay. -/
structure Resolves (body out : List Op) : Prop where
  length_eq : out.length = body.length
  /-- What does nothing still does nothing. -/
  loose : ∀ (i : Nat) op, body[i]? = some op → op.instruction.isLoose = true →
    ∃ op', out[i]? = some op' ∧ op'.instruction.isLoose = true
  /-- Heads stay. -/
  head : ∀ first index name, Heads body first index → Marks body first name →
    Marks out first name
  /-- What goes nowhere stays. -/
  plain : ∀ (i : Nat) op, body[i]? = some op → op.instruction.isLoose = false →
    op.instruction.target? = none → out[i]? = some op
  /-- What goes somewhere goes to the head of the run. -/
  target : ∀ (i : Nat) op target, body[i]? = some op → op.instruction.target? = some target →
    ∃ (landing : Landing) (index : Nat), Marks body index target.marker ∧
      Heads body landing.index index ∧ Marks body landing.index landing.name ∧
      out[i]? = some (op.redirect { marker := landing.name, index := some landing.index })

theorem isLoose_of_target? {instruction : Instruction} {target : Target}
    (h : instruction.target? = some target) : instruction.isLoose = false := by
  cases instruction with
  | jump | branch => rfl
  | _ => cases h

theorem isMarker_of_target? {instruction : Instruction} {target : Target}
    (h : instruction.target? = some target) : instruction.isMarker = false :=
  (Bool.or_eq_false_iff.mp (isLoose_of_target? h)).2

/-- The body with merged runs, op by op. -/
theorem merged_getElem? {i : Nat} {op : Op} (h : body[i]? = some op) :
    ∃ op', (pastEntry (mergeMarkers none 1) body)[i]? = some op' ∧
      ((op' = op ∧ ∀ first, i = first + 1 → op.instruction.isMarker = true →
          runBefore none 1 body.tail first = none) ∨
        (op' = op.remove ∧ op.instruction.isMarker = true ∧
          ∃ first, i = first + 1 ∧ runBefore none 1 body.tail first ≠ none)) := by
  have hne : body ≠ [] := by
    rintro rfl
    cases h
  obtain ⟨hzero, hsucc⟩ := pastEntry_getElem? (mergeMarkers none 1) body
  cases i with
  | zero =>
      refine ⟨op, by rw [hzero, h], .inl ⟨rfl, ?_⟩⟩
      intro first hfirst
      omega
  | succ n =>
      rw [hsucc, if_neg hne, mergeMarkers_getElem?, List.getElem?_tail, h]
      by_cases hmerge : (op.instruction.isMarker && (runBefore none 1 body.tail n).isSome) = true
      · refine ⟨op.remove, by rw [Option.map_some, if_pos hmerge], .inr ⟨rfl, ?_, n, rfl, ?_⟩⟩
        · exact (Bool.and_eq_true_iff.mp hmerge).1
        · exact Option.ne_none_iff_isSome.mpr (Bool.and_eq_true_iff.mp hmerge).2
      · refine ⟨op, by rw [Option.map_some, if_neg hmerge], .inl ⟨rfl, ?_⟩⟩
        rintro first hfirst hmarker
        have hfirst : n = first := by omega
        subst hfirst
        rw [hmarker, Bool.true_and] at hmerge
        exact Option.not_isSome_iff_eq_none.mp hmerge

/-- **Resolving does what it should.** -/
theorem resolves_of_resolve {label : String} (h : resolve label body = .ok out) :
    Resolves body out := by
  obtain ⟨hlength, hpoint⟩ := pointAll_getElem? h
  have htrims := resolve_trims h
  refine ⟨htrims.length_eq, ?_, ?_, ?_, ?_⟩
  · intro i op hop hloose
    obtain ⟨op', hop', htrim⟩ := htrims.exists_new hop
    refine ⟨op', hop', ?_⟩
    rcases htrim with ⟨_, rfl⟩ | ⟨target, rfl⟩
    · rfl
    · obtain ⟨instruction, offset, lastUse, position⟩ := op
      cases instruction with
      | removed | marker => rfl
      | _ => cases hloose
  · intro first index name hheads hmarks
    obtain ⟨hpos, op, hop, hinstr⟩ := hmarks
    obtain ⟨n, rfl⟩ : ∃ n, first = n + 1 := ⟨first - 1, by omega⟩
    have hlt := (List.getElem?_eq_some_iff.mp hop).1
    have hnone := runBefore_eq_none hheads (by omega)
    obtain ⟨op', hop', ⟨rfl, _⟩ | ⟨_, _, m, hm, hsome⟩⟩ := merged_getElem? hop
    · refine ⟨hpos, op', ?_, hinstr⟩
      rcases hpoint _ op' hop' with ⟨_, hout⟩ | ⟨target, _, htarget, _⟩
      · exact hout
      · rw [hinstr] at htarget
        cases htarget
    · have hm : n = m := by omega
      subst hm
      exact absurd hnone hsome
  · intro i op hop hloose htarget
    obtain ⟨op', hop', ⟨rfl, _⟩ | ⟨_, hmarker, _⟩⟩ := merged_getElem? hop
    · rcases hpoint i op' hop' with ⟨_, hout⟩ | ⟨target, _, htarget', _⟩
      · exact hout
      · rw [htarget] at htarget'
        cases htarget'
    · unfold Instruction.isLoose at hloose
      rw [hmarker, Bool.or_true] at hloose
      cases hloose
  · intro i op target hop htarget
    obtain ⟨op', hop', ⟨rfl, _⟩ | ⟨_, hmarker, _⟩⟩ := merged_getElem? hop
    · rcases hpoint i op' hop' with ⟨hnone, _⟩ | ⟨target', landing, htarget', hlanding, hout⟩
      · rw [htarget] at hnone
        cases hnone
      · rw [htarget] at htarget'
        cases htarget'
        obtain ⟨index, hmarks, hheads, hname⟩ := landing_spec hlanding
        exact ⟨landing, index, hmarks, hheads, hname, hout⟩
    · rw [isMarker_of_target? htarget] at hmarker
      cases hmarker

/-- Of jumps that cannot all be pointed the first that leads nowhere is to blame. -/
theorem exists_of_pointAll_eq_error {label : String} {lookup : String → Option Landing}
    {index : Nat} {ops : List Op} {error : Located CompileError}
    (h : pointAll label lookup index ops = .error error) :
    ∃ (n : Nat) (op : Op) (target : Target), ops[n]? = some op ∧
      op.instruction.target? = some target ∧ lookup target.marker = none ∧
      (∀ (j : Nat) earlier other, j < n → ops[j]? = some earlier →
        earlier.instruction.target? = some other → lookup other.marker ≠ none) ∧
      error = ⟨op.position, .internal label (index + n) (.undefinedMarker target.marker)⟩ := by
  induction ops generalizing index with
  | nil => cases h
  | cons first rest ih =>
      have hbehind : (∀ other, first.instruction.target? = some other →
          lookup other.marker ≠ none) →
          pointAll label lookup (index + 1) rest = .error error →
          ∃ (n : Nat) (op : Op) (target : Target), (first :: rest)[n]? = some op ∧
            op.instruction.target? = some target ∧ lookup target.marker = none ∧
            (∀ (j : Nat) earlier other, j < n → (first :: rest)[j]? = some earlier →
              earlier.instruction.target? = some other → lookup other.marker ≠ none) ∧
            error = ⟨op.position, .internal label (index + n)
              (.undefinedMarker target.marker)⟩ := by
        intro hfirst hrest
        obtain ⟨n, op, target, hop, htarget, hnone, hearlier, rfl⟩ := ih hrest
        refine ⟨n + 1, op, target, hop, htarget, hnone, fun j earlier other hj hat hother => ?_, ?_⟩
        · cases j with
          | zero =>
              cases hat
              exact hfirst other hother
          | succ j => exact hearlier j earlier other (by omega) hat hother
        · rw [show index + 1 + n = index + (n + 1) by omega]
      rw [pointAll] at h
      split at h
      · rename_i hnone
        refine hbehind (fun other hother => ?_) ?_
        · rw [hnone] at hother
          cases hother
        · rcases bind_eq_error.mp h with hrest | ⟨_, _, hpure⟩
          · exact hrest
          · cases hpure
      · rename_i target htarget
        split at h
        · rename_i hnone
          cases h
          exact ⟨0, first, target, rfl, htarget, hnone, by omega, rfl⟩
        · rename_i landing hlanding
          refine hbehind (fun other hother => ?_) ?_
          · rw [htarget] at hother
            cases hother
            rw [hlanding]
            exact Option.some_ne_none landing
          · rcases bind_eq_error.mp h with hrest | ⟨_, _, hpure⟩
            · exact hrest
            · cases hpure

/-- The op at an index goes to a marker that stands nowhere behind the entry. -/
def Astray (body : List Op) (i : Nat) (target : Target) : Prop :=
  (∃ op, body[i]? = some op ∧ op.instruction.target? = some target) ∧
    ∀ index, ¬Marks body index target.marker

/-- A name leads nowhere just if no marker has it. -/
theorem landingOf?_eq_none_iff {name : String} :
    landingOf? name none 1 body.tail = none ↔ ∀ index, ¬Marks body index name := by
  constructor
  · rintro hnone index ⟨hpos, op, hop, hinstr⟩
    obtain ⟨n, rfl⟩ : ∃ n, index = n + 1 := ⟨index - 1, by omega⟩
    rw [← List.getElem?_tail] at hop
    exact landingOf?_ne_none hop hinstr hnone
  · intro hnowhere
    cases hlanding : landingOf? name none 1 body.tail with
    | none => rfl
    | some landing =>
        obtain ⟨index, hmarks, _⟩ := landing_spec hlanding
        exact absurd hmarks (hnowhere index)

/-- **Resolving fails at the first op that goes astray**, with the position of that op and the name
that it goes to. -/
theorem exists_of_resolve_eq_error {label : String} {error : Located CompileError}
    (h : resolve label body = .error error) :
    ∃ (i : Nat) (op : Op) (target : Target), body[i]? = some op ∧
      op.instruction.target? = some target ∧ Astray body i target ∧
      (∀ j other, j < i → ¬Astray body j other) ∧
      error = ⟨op.position, .internal label i (.undefinedMarker target.marker)⟩ := by
  obtain ⟨i, op, target, hop, htarget, hnone, hearlier, rfl⟩ := exists_of_pointAll_eq_error h
  rw [Nat.zero_add]
  obtain ⟨old, hold, _⟩ := (pastEntry_trims (mergeMarkers_trims none 1) body).exists_old hop
  obtain ⟨op', hop', ⟨rfl, _⟩ | ⟨rfl, _⟩⟩ := merged_getElem? hold
  · rw [hop] at hop'
    cases hop'
    refine ⟨i, op, target, hold, htarget, ⟨⟨op, hold, htarget⟩, landingOf?_eq_none_iff.mp hnone⟩,
      ?_, rfl⟩
    rintro j other hj ⟨⟨earlier, hat, hother⟩, hnowhere⟩
    obtain ⟨earlier', hat', ⟨rfl, _⟩ | ⟨_, hmarker, _⟩⟩ := merged_getElem? hat
    · exact hearlier j earlier' other hj hat' hother (landingOf?_eq_none_iff.mpr hnowhere)
    · rw [isMarker_of_target? hother] at hmarker
      cases hmarker
  · rw [hop] at hop'
    cases hop'
    cases htarget

/-- **A body in which nothing goes astray can be resolved.** -/
theorem exists_resolve (label : String)
    (h : ∀ target, Aims body target → ∃ index, Marks body index target.marker) :
    ∃ out, resolve label body = .ok out := by
  cases hresolve : resolve label body with
  | ok out => exact ⟨out, rfl⟩
  | error error =>
      obtain ⟨_, op, target, hop, htarget, ⟨_, hnowhere⟩, _⟩ := exists_of_resolve_eq_error hresolve
      obtain ⟨index, hmarks⟩ := h target ⟨op, List.mem_of_getElem? hop, htarget⟩
      exact absurd hmarks (hnowhere index)

/-- The flow of a body in which jumps know their indices. Names are not looked up, so that it is the
same as the flow by names only while these are resolved. -/
def indexFlow (body : List Op) : Flow :=
  flowBy (·.index) body

theorem moveOf_loose {dest : Target → Option Nat} {index : Nat} {instruction : Instruction}
    (h : instruction.isLoose = true) : moveOf dest index instruction = .go (index + 1) := by
  cases instruction with
  | removed | marker => rfl
  | _ => cases h

/-- What goes nowhere does not care how markers are found. -/
theorem moveOf_plain {instruction : Instruction} (h : instruction.target? = none)
    (dest dest' : Target → Option Nat) (index : Nat) :
    moveOf dest index instruction = moveOf dest' index instruction := by
  cases instruction with
  | jump | branch => cases h
  | _ => rfl

/-- What goes somewhere goes where it goes. -/
theorem retarget_self {instruction : Instruction} {target : Target}
    (h : instruction.target? = some target) : instruction.retarget target = instruction := by
  cases instruction with
  | jump | branch =>
      cases h
      rfl
  | _ => cases h

/-- Of two targets of a jump, one is a shortcut if the other leads to it. -/
theorem ahead_retarget {F : Flow} {instruction : Instruction} {target first second : Target}
    {dest dest' : Target → Option Nat} {marker marker' : Nat}
    (h : instruction.target? = some target) (hfirst : dest first = some marker)
    (hsecond : dest' second = some marker') (hleads : Leads F (marker + 1) (marker' + 1))
    (index : Nat) :
    Move.Ahead F (moveOf dest index (instruction.retarget first))
      (moveOf dest' index (instruction.retarget second)) := by
  cases instruction with
  | jump _ =>
      simp only [Instruction.retarget, moveOf, hfirst, hsecond]
      exact .go hleads
  | branch expected condition _ =>
      simp only [Instruction.retarget, moveOf, hfirst, hsecond]
      exact .test hleads
  | _ => cases h

theorem flowBy_eq {dest : Target → Option Nat} {i : Nat} {op : Op} (h : body[i]? = some op) :
    flowBy dest body i = moveOf dest i op.instruction := by
  unfold flowBy
  rw [h]

theorem flowBy_eq_stop {dest : Target → Option Nat} {i : Nat} (h : body[i]? = none) :
    flowBy dest body i = .stop := by
  unfold flowBy
  rw [h]

/-- Ops that are all loose lead on. -/
theorem leads_loose {dest : Target → Option Nat} {i j : Nat} (hle : i ≤ j)
    (h : ∀ k, i ≤ k → k < j → ∃ op, body[k]? = some op ∧ op.instruction.isLoose = true) :
    Leads (flowBy dest body) i j := by
  apply Leads.straight hle
  intro k hlow hhigh
  obtain ⟨op, hop, hloose⟩ := h k hlow hhigh
  rw [flowBy_eq hop, moveOf_loose hloose]

/-- **Resolving keeps runs.**  A jump that is sent to the head of a run passes over the
run and comes to its own marker. -/
theorem sameRuns_resolve (hpointed : Pointed body) (h : Resolves body out) :
    SameRuns (flow body) (indexFlow out) := by
  apply SameRuns.symm
  apply sameRuns_of_shortcut
  intro i
  cases hop : body[i]? with
  | none =>
      have hout : out[i]? = none := by
        rw [List.getElem?_eq_none_iff] at hop ⊢
        rw [h.length_eq]
        exact hop
      rw [indexFlow, flow, flowBy_eq_stop hout, flowBy_eq_stop hop]
      exact .same _
  | some op =>
      by_cases hloose : op.instruction.isLoose = true
      · obtain ⟨op', hop', hloose'⟩ := h.loose i op hop hloose
        rw [indexFlow, flow, flowBy_eq hop', flowBy_eq hop, moveOf_loose hloose, moveOf_loose hloose']
        exact .same _
      · cases htarget : op.instruction.target? with
        | none =>
            have hop' := h.plain i op hop (Bool.eq_false_iff.mpr hloose) htarget
            rw [indexFlow, flow, flowBy_eq hop', flowBy_eq hop, moveOf_plain htarget]
            exact .same _
        | some target =>
            obtain ⟨landing, index, hmarks, hheads, hname, hop'⟩ := h.target i op target hop htarget
            obtain ⟨index', hmarks', honly⟩ := hpointed target ⟨op, List.mem_of_getElem? hop, htarget⟩
            have hindex := honly index hmarks
            subst hindex
            have hfound := markerIndex?_eq_some hmarks honly
            have hleads : Leads (indexFlow out) (landing.index + 1) (index + 1) := by
              have hle := hheads.le
              apply leads_loose (by omega)
              intro k hlow hhigh
              have hk : ∃ opk, body[k]? = some opk ∧ opk.instruction.isLoose = true := by
                obtain ⟨_, marker, hmarker, hinstr⟩ := hmarks
                by_cases hkm : k = index
                · refine ⟨marker, hkm ▸ hmarker, ?_⟩
                  rw [hinstr]
                  rfl
                · have hlt : k < body.length := by
                    have := (List.getElem?_eq_some_iff.mp hmarker).1
                    omega
                  have hsome := List.getElem?_eq_getElem hlt
                  exact ⟨_, hsome, hheads.loose k _ (by omega) (by omega) hsome⟩
              obtain ⟨opk, hopk, hlk⟩ := hk
              exact h.loose k opk hopk hlk
            have hahead : Move.Ahead (indexFlow out)
                (moveOf (·.index) i
                  (op.instruction.retarget { marker := landing.name, index := some landing.index }))
                (moveOf (fun t => markerIndex? body t.marker) i (op.instruction.retarget target)) :=
              ahead_retarget htarget rfl hfound hleads i
            rw [retarget_self htarget] at hahead
            rw [indexFlow, flow, flowBy_eq hop', flowBy_eq hop]
            exact hahead

end Resolving

end Stackless.Flat
