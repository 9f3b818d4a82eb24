import Stackless.Proofs.Flattening
import Stackless.Proofs.Simplification

/-!
# The markers of a flat body

Markers are numbered in the order in which they are needed, and stand in another
order: the marker at the end of a branch comes behind all those of its sides.  So
what a piece of a body is known by is the set of numbers of its markers
(`Numbered`).  Pieces whose numbers are apart can be put one after the other
(`Numbered.append`), and in the end no two markers of a body have one name
(`distinct_of_flatBody`).

A piece goes only to its own markers and to those of the loop around it (`Aimed`),
so every jump of a body leads to a marker (`pointed_of_flatBody`).  That is what
simplification asks for: the flat form of a function can always be simplified, and
keeps its runs (`simplify_of_ofModel`).
-/

namespace Stackless.Flat

open Model (Stmt)

/-- Different numbers make different names. -/
theorem markerName_inj {label : String} {m n : Nat} (h : markerName label m = markerName label n) :
    m = n := by
  unfold markerName at h
  have hdigits := congrArg String.toList ((String.append_right_inj _).mp h)
  rw [Nat.toString_eq_repr, Nat.toString_eq_repr, Nat.toList_repr, Nat.toList_repr] at hdigits
  have hvalue := congrArg (Nat.ofDigitChars 10 · 0) hdigits
  simp only [Nat.ofDigitChars_ten_toDigits] at hvalue
  exact hvalue

/-- Every marker of some code has a number of a kind, and none stands twice. -/
structure Numbered (label : String) (P : Nat → Prop) (code : List Instruction) : Prop where
  named : ∀ (k : Nat) name, code[k]? = some (.marker name) → ∃ n, P n ∧ name = markerName label n
  once : ∀ (k k' : Nat) name, code[k]? = some (.marker name) → code[k']? = some (.marker name) →
    k = k'

namespace Numbered

variable {label : String} {P Q : Nat → Prop} {xs ys : List Instruction}

theorem mono (h : Numbered label P xs) (hPQ : ∀ n, P n → Q n) : Numbered label Q xs := by
  refine ⟨fun k name hk => ?_, h.once⟩
  obtain ⟨n, hn, hname⟩ := h.named k name hk
  exact ⟨n, hPQ n hn, hname⟩

theorem of_no_marker (h : ∀ x ∈ xs, x.isMarker = false) : Numbered label P xs := by
  have hnone : ∀ (k : Nat) name, xs[k]? ≠ some (.marker name) := by
    intro k name hk
    cases h _ (List.mem_of_getElem? hk)
  exact ⟨fun k name hk => absurd hk (hnone k name), fun k _ name hk => absurd hk (hnone k name)⟩

/-- A single marker. -/
theorem single (n : Nat) : Numbered label (· = n) [.marker (markerName label n)] := by
  have hzero : ∀ {k : Nat} {instr : Instruction},
      [Instruction.marker (markerName label n)][k]? = some instr → k = 0 := by
    intro k instr hk
    have := (List.getElem?_eq_some_iff.mp hk).1
    simp only [List.length_singleton] at this
    omega
  constructor
  · intro k name hk
    rw [hzero hk] at hk
    cases hk
    exact ⟨n, rfl, rfl⟩
  · intro k k' name hk hk'
    rw [hzero hk, hzero hk']

/-- **Code with other markers behind it.**  If the two pieces take their numbers from kinds that are
apart, names remain unique in the whole. -/
theorem append (hx : Numbered label P xs) (hy : Numbered label Q ys) (hapart : ∀ n, P n → ¬Q n) :
    Numbered label (fun n => P n ∨ Q n) (xs ++ ys) := by
  have hcases : ∀ {k : Nat} {name : String}, (xs ++ ys)[k]? = some (.marker name) →
      (k < xs.length ∧ xs[k]? = some (.marker name)) ∨
        (xs.length ≤ k ∧ ys[k - xs.length]? = some (.marker name)) := by
    intro k name hk
    rw [List.getElem?_append] at hk
    by_cases hlt : k < xs.length
    · rw [if_pos hlt] at hk
      exact .inl ⟨hlt, hk⟩
    · rw [if_neg hlt] at hk
      exact .inr ⟨by omega, hk⟩
  have hboth : ∀ {k k' : Nat} {name : String}, xs[k]? = some (.marker name) →
      ys[k']? = some (.marker name) → False := by
    intro k k' name hk hk'
    obtain ⟨n, hn, hname⟩ := hx.named k name hk
    obtain ⟨n', hn', hname'⟩ := hy.named k' name hk'
    have hsame := markerName_inj (hname.symm.trans hname')
    exact hapart n hn (hsame ▸ hn')
  constructor
  · intro k name hk
    rcases hcases hk with ⟨_, hk⟩ | ⟨_, hk⟩
    · obtain ⟨n, hn, hname⟩ := hx.named k name hk
      exact ⟨n, .inl hn, hname⟩
    · obtain ⟨n, hn, hname⟩ := hy.named _ name hk
      exact ⟨n, .inr hn, hname⟩
  · intro k k' name hk hk'
    rcases hcases hk with ⟨_, hk⟩ | ⟨hle, hk⟩
    · rcases hcases hk' with ⟨_, hk'⟩ | ⟨_, hk'⟩
      · exact hx.once k k' name hk hk'
      · exact (hboth hk hk').elim
    · rcases hcases hk' with ⟨_, hk'⟩ | ⟨hle', hk'⟩
      · exact (hboth hk' hk).elim
      · have := hy.once _ _ name hk hk'
        omega

theorem behind (hy : Numbered label Q ys) (hx : ∀ x ∈ xs, x.isMarker = false) :
    Numbered label Q (xs ++ ys) := by
  have hnone : Numbered label (fun _ => False) xs := of_no_marker hx
  exact (hnone.append hy fun n hn => hn.elim).mono fun n hn => hn.resolve_left id

/-- A jump in front of a marker. -/
theorem jump_single (target : Target) (n : Nat) :
    Numbered label (· = n) [.jump target, .marker (markerName label n)] := by
  have hjump : ∀ x ∈ [Instruction.jump target], x.isMarker = false := by
    intro x hx
    rw [List.mem_singleton.mp hx]
    rfl
  exact (single n).behind hjump

end Numbered

theorem isMarker_of_isInner {instruction : Instruction} (h : instruction.isInner = true) :
    instruction.isMarker = false := by
  cases instruction with
  | marker => cases h
  | _ => rfl

/-- Code that computes a value and then uses it has no markers. -/
theorem isMarker_of_mem_test {ctx : Context} {start : Nat} {condition : Model.Expr}
    {value : Evaluation} (h : evaluate ctx start condition = .ok value) {user : Instruction}
    (huser : user.isMarker = false) : ∀ x ∈ value.code ++ [user], x.isMarker = false := by
  intro x hx
  rcases List.mem_append.mp hx with hx | hx
  · exact isMarker_of_isInner ((evaluate_computes _ h).inner x hx)
  · rw [List.mem_singleton.mp hx]
    exact huser

/-- The code of a simple statement has no markers. -/
theorem isMarker_of_mem_simpleCode {ctx : Context} {start : Nat} {stmt : Stmt}
    {code : List Instruction} (hsimple : isSimple stmt = true)
    (h : simpleCode ctx start stmt = .ok code) : ∀ x ∈ code, x.isMarker = false := by
  obtain ⟨inner, last, rfl, hinner, hlast⟩ := simpleCode_split hsimple h
  intro x hx
  rcases List.mem_append.mp hx with hx | hx
  · exact isMarker_of_isInner (hinner x hx)
  · rw [List.mem_singleton.mp hx]
    cases last with
    | marker =>
        rcases hlast with ⟨_, hlast⟩ | ⟨_, hlast⟩
        · cases hlast
        · cases hlast
    | _ => rfl

/-- **The markers of statements have the numbers that were named for them.** -/
theorem Flattens.numbered {ctx : Context} {loop : Option LoopMarkers} {position : Option Position}
    {start markers final : Nat} {stmt : Stmt} {ops : List Op}
    (h : Flattens ctx loop position start markers stmt ops final) :
    markers ≤ final ∧
      Numbered ctx.function.label (fun n => markers < n ∧ n ≤ final) (codeOf ops) := by
  induction h with
  | nil => exact ⟨Nat.le_refl _, .of_no_marker nofun⟩
  | cons _ _ ihfirst ihothers =>
      rw [codeOf_append]
      have hboth := ihfirst.2.append ihothers.2 fun n hn hn' => by omega
      have hle := ihfirst.1
      have hle' := ihothers.1
      exact ⟨by omega, hboth.mono fun n hn => by omega⟩
  | exit hvalue _ _ =>
      rw [codeOf_opsAt]
      exact ⟨Nat.le_refl _, .of_no_marker (isMarker_of_mem_test hvalue rfl)⟩
  | exitElse hvalue _ _ _ ih =>
      simp only [codeOf_append, codeOf_opsAt]
      exact ⟨ih.1, ih.2.behind (isMarker_of_mem_test hvalue rfl)⟩
  | choose hvalue _ _ ih =>
      simp only [codeOf_append, codeOf_opsAt]
      refine ⟨by omega, Numbered.mono (.append (ih.2.behind (isMarker_of_mem_test hvalue rfl))
        (.single _) ?_) ?_⟩
      · intro n hn hskip
        omega
      · intro n hn
        omega
  | chooseElse hvalue _ _ _ ihbody ihothers =>
      simp only [codeOf_append, codeOf_opsAt]
      refine ⟨by omega, Numbered.mono (.append (.append (.append
        (ihbody.2.behind (isMarker_of_mem_test hvalue rfl)) (.jump_single _ _) ?_) ihothers.2 ?_)
        (.single _) ?_) ?_⟩
      · intro n hn hskip
        omega
      · intro n hn hother
        omega
      · intro n hn hexit
        omega
      · intro n hn
        omega
  | loop _ ih =>
      simp only [codeOf_append, codeOf_opsAt]
      refine ⟨by omega, Numbered.mono (.append (.append (.single _) ih.2 ?_)
        (.jump_single _ _) ?_) ?_⟩
      · intro n htop hn
        omega
      · intro n hn hbottom
        omega
      · intro n hn
        omega
  | breakLoop _ | continueLoop _ =>
      rw [codeOf_opsAt]
      exact ⟨Nat.le_refl _, .of_no_marker fun x hx => by rw [List.mem_singleton.mp hx]; rfl⟩
  | simple hsimple hcode =>
      rw [codeOf_opsAt]
      exact ⟨Nat.le_refl _, .of_no_marker (isMarker_of_mem_simpleCode hsimple hcode)⟩

/-- **Where the markers of a body stand.**  The entry in front of the statements does not
count, and what is added behind them is no marker. -/
theorem marks_framed_iff {label : String} {ops : List Op} {ends : Bool} {index : Nat}
    {name : String} :
    Marks (opsAt none [.marker label] ++ ops ++ if ends then [] else opsAt none [.ret none]) index
      name ↔ ∃ k, index = k + 1 ∧ (codeOf ops)[k]? = some (.marker name) := by
  have hbehind : ∀ k : Nat, (codeOf (if ends then [] else opsAt none [.ret none]))[k]? ≠
      some (Instruction.marker name) := by
    intro k hk
    have hmem := List.mem_of_getElem? hk
    cases ends with
    | true => cases hmem
    | false => cases List.mem_singleton.mp hmem
  have hcode : ∀ k, (codeOf (opsAt none [.marker label] ++ ops ++
      if ends then [] else opsAt none [.ret none]))[k + 1]? = some (.marker name) ↔
      (codeOf ops)[k]? = some (.marker name) := by
    intro k
    rw [List.append_assoc, codeOf_append, codeOf_opsAt, List.singleton_append,
      List.getElem?_cons_succ, codeOf_append, List.getElem?_append]
    by_cases hlt : k < (codeOf ops).length
    · rw [if_pos hlt]
    · rw [if_neg hlt, List.getElem?_eq_none (Nat.le_of_not_lt hlt)]
      constructor
      · intro hk
        exact absurd hk (hbehind _)
      · intro hk
        cases hk
  rw [marks_iff]
  constructor
  · rintro ⟨hpos, hindex⟩
    obtain ⟨k, rfl⟩ : ∃ k, index = k + 1 := ⟨index - 1, by omega⟩
    exact ⟨k, rfl, (hcode k).mp hindex⟩
  · rintro ⟨k, rfl, hk⟩
    exact ⟨by omega, (hcode k).mpr hk⟩

/-- **No two markers of a flat body have one name.**  The numbers in their names are drawn from a
counter that only goes up, one statement after the other. -/
theorem distinct_of_flatBody {ctx : Context} {body : List Op} (h : flatBody ctx = .ok body) :
    Distinct body := by
  obtain ⟨ops, markers, hflattens, rfl⟩ := flatBody_eq_ok h
  intro index index' name hindex hindex'
  obtain ⟨k, rfl, hk⟩ := marks_framed_iff.mp hindex
  obtain ⟨k', rfl, hk'⟩ := marks_framed_iff.mp hindex'
  rw [hflattens.numbered.2.once k k' name hk hk']

/-- The markers of the innermost loop. -/
def LoopMarkers.Names (loop : Option LoopMarkers) (name : String) : Prop :=
  ∃ markers, loop = some markers ∧ (name = markers.top ∨ name = markers.bottom)

/-- What goes somewhere goes to a marker of the code or to one that is known. -/
def Aimed (known : String → Prop) (code : List Instruction) : Prop :=
  ∀ x ∈ code, ∀ target, x.target? = some target →
    .marker target.marker ∈ code ∨ known target.marker

namespace Aimed

variable {known known' : String → Prop} {xs ys : List Instruction} {name : String}

theorem of_no_target (h : ∀ x ∈ xs, x.target? = none) : Aimed known xs := by
  intro x hx target htarget
  rw [h x hx] at htarget
  cases htarget

theorem jump {target : Target} (h : known target.marker) : Aimed known [.jump target] := by
  intro x hx target' htarget
  rw [List.mem_singleton.mp hx] at htarget
  cases htarget
  exact .inr h

theorem marker : Aimed known [.marker name] := by
  apply of_no_target
  intro x hx
  rw [List.mem_singleton.mp hx]
  rfl

theorem append (hx : Aimed known xs) (hy : Aimed known ys) : Aimed known (xs ++ ys) := by
  intro x hmem target htarget
  rcases List.mem_append.mp hmem with hmem | hmem
  · exact (hx x hmem target htarget).imp_left (List.mem_append_left _)
  · exact (hy x hmem target htarget).imp_left (List.mem_append_right _)

/-- **Markers of the code need not be known.** -/
theorem close (h : Aimed known' xs) (hknown : ∀ name, known' name → .marker name ∈ xs ∨ known name) :
    Aimed known xs := by
  intro x hx target htarget
  rcases h x hx target htarget with hmarker | hname
  · exact .inl hmarker
  · exact hknown _ hname

theorem mono (h : Aimed known' xs) (hknown : ∀ name, known' name → known name) : Aimed known xs :=
  h.close fun name hname => .inr (hknown name hname)

section Shapes

variable {head body others : List Instruction} {skip exit top bottom : String}

/-- A branch over a body. -/
theorem choose (hhead : Aimed (· = skip) head) (hbody : Aimed known body) :
    Aimed known (head ++ body ++ [.marker skip]) := by
  have hall : Aimed (fun name => name = skip ∨ known name) (head ++ body ++ [.marker skip]) :=
    ((hhead.mono fun _ => .inl).append (hbody.mono fun _ => .inr)).append .marker
  refine hall.close fun name hname => hname.imp_left ?_
  rintro rfl
  simp

/-- A branch over the one side or over the other. -/
theorem chooseElse (hhead : Aimed (· = skip) head) (hbody : Aimed known body)
    (hothers : Aimed known others) :
    Aimed known (head ++ body ++ [.jump ⟨exit, none⟩, .marker skip] ++ others ++
      [.marker exit]) := by
  have hjump : Aimed (· = exit) [.jump ⟨exit, none⟩] := by
    apply jump
    rfl
  have hjoin : Aimed (· = exit) ([.jump ⟨exit, none⟩] ++ [.marker skip]) := hjump.append .marker
  have hall : Aimed (fun name => name = skip ∨ name = exit ∨ known name)
      (head ++ body ++ [.jump ⟨exit, none⟩, .marker skip] ++ others ++ [.marker exit]) :=
    ((((hhead.mono fun _ => .inl).append (hbody.mono fun _ h => .inr (.inr h))).append
      (hjoin.mono fun _ h => .inr (.inl h))).append
      (hothers.mono fun _ h => .inr (.inr h))).append .marker
  refine hall.close fun name hname => ?_
  rcases hname with rfl | rfl | hname
  · exact .inl (by simp)
  · exact .inl (by simp)
  · exact .inr hname

/-- A loop goes nowhere else, since the body knows only its markers. -/
theorem loop (hbody : Aimed (LoopMarkers.Names (some ⟨top, bottom⟩)) body) :
    Aimed known ([.marker top] ++ body ++ [.jump ⟨top, none⟩, .marker bottom]) := by
  have hjoin : Aimed (LoopMarkers.Names (some ⟨top, bottom⟩))
      ([.jump ⟨top, none⟩] ++ [.marker bottom]) :=
    (Aimed.jump ⟨_, rfl, .inl rfl⟩).append .marker
  have hall : Aimed (LoopMarkers.Names (some ⟨top, bottom⟩))
      ([.marker top] ++ body ++ [.jump ⟨top, none⟩, .marker bottom]) :=
    (Aimed.marker.append hbody).append hjoin
  refine hall.close fun name hname => .inl ?_
  obtain ⟨_, hmarkers, hname⟩ := hname
  cases hmarkers
  rcases hname with rfl | rfl
  · simp
  · simp

end Shapes

end Aimed

theorem target?_of_isInner {instruction : Instruction} (h : instruction.isInner = true) :
    instruction.target? = none := by
  cases instruction with
  | jump | branch => cases h
  | _ => rfl

/-- Code that computes a value and then branches goes to the target of the branch. -/
theorem aimed_test {ctx : Context} {start : Nat} {condition : Model.Expr} {value : Evaluation}
    {known : String → Prop} (h : evaluate ctx start condition = .ok value) {expected : Bool}
    {target : Target} (htarget : known target.marker) :
    Aimed known (value.code ++ [.branch expected (value.ref start) target]) := by
  have hinner : Aimed known value.code :=
    .of_no_target fun x hx => target?_of_isInner ((evaluate_computes _ h).inner x hx)
  apply hinner.append
  intro x hx target' htarget'
  rw [List.mem_singleton.mp hx] at htarget'
  cases htarget'
  exact .inr htarget

/-- The code of a simple statement goes nowhere. -/
theorem aimed_simpleCode {ctx : Context} {start : Nat} {stmt : Stmt} {code : List Instruction}
    {known : String → Prop} (hsimple : isSimple stmt = true)
    (h : simpleCode ctx start stmt = .ok code) : Aimed known code := by
  obtain ⟨inner, last, rfl, hinner, hlast⟩ := simpleCode_split hsimple h
  apply Aimed.of_no_target
  intro x hx
  rcases List.mem_append.mp hx with hx | hx
  · exact target?_of_isInner (hinner x hx)
  · rw [List.mem_singleton.mp hx]
    cases last with
    | jump | branch =>
        rcases hlast with ⟨_, hlast⟩ | ⟨_, hlast⟩
        · cases hlast
        · cases hlast
    | _ => rfl

/-- A `break` or `continue` goes to a marker of the innermost loop. -/
theorem names_of_target {loop : Option LoopMarkers} {exit : LoopExit} {target : Target}
    (h : exit.target loop = .ok target) : LoopMarkers.Names loop target.marker := by
  cases loop with
  | none => cases h
  | some markers =>
      cases exit with
      | breakLoop =>
          cases h
          exact ⟨markers, rfl, .inr rfl⟩
      | continueLoop =>
          cases h
          exact ⟨markers, rfl, .inl rfl⟩

/-- **Statements go only to markers of their own and of the innermost loop.** -/
theorem Flattens.aimed {ctx : Context} {loop : Option LoopMarkers} {position : Option Position}
    {start markers final : Nat} {stmt : Stmt} {ops : List Op}
    (h : Flattens ctx loop position start markers stmt ops final) :
    Aimed (LoopMarkers.Names loop) (codeOf ops) := by
  induction h with
  | nil => exact .of_no_target nofun
  | cons _ _ ihfirst ihothers =>
      rw [codeOf_append]
      exact ihfirst.append ihothers
  | exit hvalue _ htarget =>
      rw [codeOf_opsAt]
      exact aimed_test hvalue (names_of_target htarget)
  | exitElse hvalue _ htarget _ ih =>
      simp only [codeOf_append, codeOf_opsAt]
      exact (aimed_test hvalue (names_of_target htarget)).append ih
  | choose hvalue _ _ ih =>
      simp only [codeOf_append, codeOf_opsAt]
      refine .choose (aimed_test hvalue ?_) ih
      rfl
  | chooseElse hvalue _ _ _ ihbody ihothers =>
      simp only [codeOf_append, codeOf_opsAt]
      refine .chooseElse (aimed_test hvalue ?_) ihbody ihothers
      rfl
  | loop _ ih =>
      simp only [codeOf_append, codeOf_opsAt]
      exact ih.loop
  | breakLoop htarget | continueLoop htarget =>
      rw [codeOf_opsAt]
      exact .jump (names_of_target htarget)
  | simple hsimple hcode =>
      rw [codeOf_opsAt]
      exact aimed_simpleCode hsimple hcode

/-- **Every jump of a flat body names exactly one marker behind the entry.**  Jumps get the names of
markers that the same statement writes, or of those of the loop around it. -/
theorem pointed_of_flatBody {ctx : Context} {body : List Op} (h : flatBody ctx = .ok body) :
    Pointed body := by
  have hdistinct := distinct_of_flatBody h
  obtain ⟨ops, markers, hflattens, rfl⟩ := flatBody_eq_ok h
  rintro target ⟨op, hop, htarget⟩
  have hothers : ∀ instruction : Instruction, instruction.target? = none →
      op ∉ opsAt none [instruction] := by
    intro instruction hnone hmem
    have hcode : op.instruction ∈ codeOf (opsAt none [instruction]) := List.mem_map_of_mem hmem
    rw [codeOf_opsAt, List.mem_singleton] at hcode
    rw [hcode, hnone] at htarget
    cases htarget
  have hmem : op ∈ ops := by
    rcases List.mem_append.mp hop with hop | hop
    · rcases List.mem_append.mp hop with hop | hop
      · exact absurd hop (hothers _ rfl)
      · exact hop
    · split at hop
      · cases hop
      · exact absurd hop (hothers _ rfl)
  have hmarker : .marker target.marker ∈ codeOf ops := by
    rcases hflattens.aimed op.instruction (List.mem_map_of_mem hmem) target htarget with
      hmarker | ⟨_, hloop, _⟩
    · exact hmarker
    · cases hloop
  obtain ⟨k, hk⟩ := List.mem_iff_getElem?.mp hmarker
  refine ⟨k + 1, marks_framed_iff.mpr ⟨k, rfl, hk⟩, fun other hother => ?_⟩
  exact hdistinct other (k + 1) _ hother (marks_framed_iff.mpr ⟨k, rfl, hk⟩)

/-- The operands of a flat body stand in it. -/
theorem Shaped.closed {body : List Op} (h : Shaped 0 (codeOf body)) : Closed body := by
  intro op hop r hr
  obtain ⟨i, hi⟩ := List.mem_iff_getElem?.mp hop
  have hbefore := (h.operand i _ (codeOf_getElem? hi) r hr).2
  have hlt := (List.getElem?_eq_some_iff.mp hi).1
  omega

/-- **The flat form of a function can be simplified, and keeps its runs.**  What
`simplify_keeps_runs` has to ask of arbitrary code holds of all that lowering gives. -/
theorem simplify_of_ofModel {model : Model.Program} {f : Model.Function} {g : Function}
    (h : Function.ofModel model f = .ok g) :
    ∃ g', g.simplify = .ok g' ∧ SameRuns (flow g.body) (flow g'.body) := by
  obtain ⟨body, hbody, hg⟩ := bind_eq_ok.mp h
  have hcode : codeOf g.body = codeOf body := by
    cases hg
    exact codeOf_withLastUses body
  have hpointed := (pointed_of_flatBody hbody).of_codeOf_eq hcode
  have hapart := ((distinct_of_flatBody hbody).of_codeOf_eq hcode).headsApart
  have hshaped : Shaped 0 (codeOf g.body) := hcode ▸ shaped_of_flatBody hbody
  obtain ⟨g', hg'⟩ := exists_simplify hpointed hapart hshaped.closed
  exact ⟨g', hg', sameRuns_of_simplify hpointed hapart hg'⟩

/-- **What was flattened can be simplified.** -/
theorem exists_simplified {model : Model.Program} {flat : Program}
    (h : Program.ofModel model = .ok flat) : ∃ simple, flat.simplify = .ok simple := by
  refine Table.exists_mapM fun label g hg => ?_
  obtain ⟨_, _, _, _, _, hof⟩ := exists_of_find?_ofModel h hg
  obtain ⟨g', hg', _⟩ := simplify_of_ofModel hof
  exact ⟨g', hg'⟩

end Stackless.Flat
