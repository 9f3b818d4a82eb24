import Stackless.Model.Construct
import Stackless.Proofs.Faults
import Stackless.Proofs.GlobalCells

/-!
# Functions that are active together share no storage

There is no stack, so a function keeps its values in a window of fixed addresses.
Two functions can be **active together** when one calls the other, directly or
not, when one belongs to the main line and the other is a handler, or when both
are handlers.  Their windows are then apart:

* along a call chain callees stand above their callers;
* handlers stand above the high-water mark of the main line, one above the other.

All windows stand behind the globals.  The entry may itself be an installed
handler; it then makes no call, is the whole main line, and moves up with the
handlers.
-/

namespace Stackless

open Flat (Program Function File Window)
open Calls (Forest CallTree isHandler Unfolds)

/-- Two functions of a forest that can be active at the same time: the first calls the second in the
end, or the second is a handler that may interrupt it. -/
inductive ActiveTogether (model : Model.Program) (forest : Forest) : String → String → Prop
  /-- The first stands above the second on some call chain of the main line. -/
  | chain {f g : String} : forest.main.Above f g → ActiveTogether model forest f g
  /-- The first belongs to the main line and the second is an installed handler. -/
  | interrupt {f g : String} {level : Nat} :
      forest.main.Occurs f → (level, g) ∈ model.vectors.handlers → ActiveTogether model forest f g
  /-- Both are installed handlers. -/
  | handlers {f g : String} {low high : Nat} :
      (low, f) ∈ model.vectors.handlers → (high, g) ∈ model.vectors.handlers →
      ActiveTogether model forest f g

/-- The windows of a frame start at 0 if those of the function did. -/
theorem Storage.base_of_frame {globals : Table Nat} {source : Model.Function} {f g : Function}
    (h : Storage.frame globals source f = .ok g) (hregisters : f.registers = {})
    (hbits : f.bits = {}) (file : File) : (g.window file).base = 0 := by
  obtain ⟨hr, hb⟩ := Storage.frame_keeps h
  cases file with
  | register =>
      show g.registers.base = 0
      rw [hr, hregisters]
  | bit =>
      show g.bits.base = 0
      rw [hb, hbits]

namespace Stages

variable {model : Model.Program} {c : Compilation}

/-- The labels of the handlers' trees. -/
def handlerNames (forest : Forest) : List String :=
  forest.interrupts.map (·.2.name)

/-- Installed handlers are the labels of the handlers' trees. -/
theorem mem_handlerNames (s : Stages model c) {level : Nat} {label : String}
    (h : (level, label) ∈ model.vectors.handlers) : label ∈ handlerNames c.forest := by
  obtain ⟨t, ht, hname⟩ := s.rooted.mem_handlers_iff.mp ⟨level, h⟩
  exact List.mem_map.mpr ⟨t, ht, hname⟩

theorem raising (s : Stages model c) :
    Storage.Raising s.storage.framed s.storage.free [c.forest.main] s.storage.stacked :=
  Storage.raising_of_stack s.storage.stacked_eq

theorem topping (s : Stages model c) :
    Storage.Topping s.storage.stacked s.storage.mainLine [] (handlerNames c.forest)
      s.storage.raised s.storage.top :=
  Storage.topping_of_stackHandlers (fun _ hh => s.rooted.handler_eq hh) s.storage.raised_eq

/-- Every function that is reached has a frame, whose windows start at 0. -/
theorem find?_framed (s : Stages model c) {label : String} (h : label ∈ c.forest.reachable) :
    ∃ source f g, model.function label = .ok source ∧ s.simple.find? label = some f ∧
      Storage.frame s.storage.cursors.addresses source f = .ok g ∧
      s.storage.framed.find? label = some g ∧ ∀ file, (g.window file).base = 0 := by
  obtain ⟨source, f, g, hsource, hf, hframe, hg⟩ :=
    (Storage.find?_frames (Calls.nodup_distinct _) s.storage.framed_eq).1 label h
  obtain ⟨hregisters, hbits, _⟩ := s.simple_storage hf
  exact ⟨source, f, g, hsource, hf, hframe, hg, Storage.base_of_frame hframe hregisters hbits⟩

/-- Every function that is reached keeps its frame but for the bases while the
windows are placed, and is anchored in the end. -/
theorem find?_final (s : Stages model c) {label : String} (h : label ∈ c.forest.reachable) :
    ∃ g k r F, s.storage.framed.find? label = some g ∧
      s.storage.stacked.find? label = some k ∧ s.storage.raised.find? label = some r ∧
      Storage.SameBut g k ∧ Storage.SameBut k r ∧ Storage.anchor r = .ok F ∧
      c.program.find? label = some F := by
  obtain ⟨_, _, g, _, _, _, hg, _⟩ := s.find?_framed h
  obtain ⟨k, hk, hgk⟩ := s.raising.same label g hg
  obtain ⟨r, hr, hkr⟩ := s.topping.same label k hk
  obtain ⟨F, hanchor, hF⟩ :=
    (Storage.find?_anchorAll (Calls.nodup_distinct _) s.storage.final_eq).1 label h r hr
  exact ⟨g, k, r, F, hg, hk, hr, hgk, hkr, hanchor, hF⟩

/-- The final windows are those that were placed. -/
theorem window_final (s : Stages model c) {label : String} (h : label ∈ c.forest.reachable)
    {r : Function} (hr : s.storage.raised.find? label = some r) :
    ∃ F, c.program.find? label = some F ∧ ∀ file, F.window file = r.window file := by
  obtain ⟨_, _, r', F, _, _, hr', _, _, hanchor, hF⟩ := s.find?_final h
  rw [hr] at hr'
  cases hr'
  exact ⟨F, hF, Storage.window_of_anchor hanchor⟩

theorem reachable_of_occurs (s : Stages model c) {f : String} (h : c.forest.main.Occurs f) :
    f ∈ c.forest.reachable :=
  s.rooted.mem_reachable_iff.mpr (.inl h)

theorem reachable_of_handler (s : Stages model c) {f : String} (h : f ∈ handlerNames c.forest) :
    f ∈ c.forest.reachable := by
  obtain ⟨t, ht, rfl⟩ := List.mem_map.mp h
  exact s.rooted.mem_reachable_iff.mpr (.inr ⟨t, ht, rfl⟩)

/-- Of two functions on a call chain neither is a handler. -/
theorem not_handler_of_above (s : Stages model c) {f g : String} (h : c.forest.main.Above f g) :
    f ∉ handlerNames c.forest ∧ g ∉ handlerNames c.forest := by
  have hisr : ∀ name ∈ handlerNames c.forest, isHandler s.simple name = true := by
    intro name hname
    obtain ⟨t, ht, rfl⟩ := List.mem_map.mp hname
    exact s.rooted.handler_isr t ht
  obtain ⟨t, child, ht, rfl, hchild, u, hu, rfl⟩ := h
  have hunf := s.rooted.main_unfolds.within ht
  constructor
  · intro hmem
    have hnil := hunf.calls_eq_nil (hisr _ hmem)
    rw [hnil] at hchild
    cases hchild
  · intro hmem
    have hplain : isHandler s.simple u.name = false := by
      cases hunf with
      | node _ _ _ hplain hall =>
          rcases (hall child hchild).eq_or_not_handler hu with rfl | h
          · exact hplain u hchild
          · exact h
    rw [hisr _ hmem] at hplain
    cases hplain

/-- **Call chains.**  The window of a caller ends below the windows of what it
calls. -/
theorem chain_le (s : Stages model c) {f g : String} (h : c.forest.main.Above f g) :
    ∃ F G, c.program.find? f = some F ∧ c.program.find? g = some G ∧
      ∀ file, (F.window file).base + (F.window file).count ≤ (G.window file).base := by
  have hof : c.forest.main.Occurs f := by
    obtain ⟨t, _, ht, rfl, _, _⟩ := h
    exact ⟨t, ht, rfl⟩
  have hog : c.forest.main.Occurs g := by
    obtain ⟨t, child, ht, _, hchild, ho⟩ := h
    cases t with
    | node name calls => exact (ho.under hchild).within ht
  obtain ⟨_, k, r, _, _, hk, hr, _⟩ := s.find?_final (s.reachable_of_occurs hof)
  obtain ⟨_, k', r', _, _, hk', hr', _⟩ := s.find?_final (s.reachable_of_occurs hog)
  obtain ⟨hf, hg⟩ := s.not_handler_of_above h
  rw [s.topping.others f (.inr hf), hk] at hr
  rw [s.topping.others g (.inr hg), hk'] at hr'
  cases hr
  cases hr'
  obtain ⟨F, hF, hwF⟩ := s.window_final (s.reachable_of_occurs hof)
    (by rw [s.topping.others f (.inr hf)]; exact hk)
  obtain ⟨G, hG, hwG⟩ := s.window_final (s.reachable_of_occurs hog)
    (by rw [s.topping.others g (.inr hg)]; exact hk')
  refine ⟨F, G, hF, hG, fun file => ?_⟩
  rw [hwF, hwG]
  refine s.raising.callee_above_caller s.rooted.main_unfolds ?_ h hk hk' file
  intro name f0 hf0 ho file
  obtain ⟨_, _, g0, _, _, _, hg0, hzero⟩ := s.find?_framed (s.reachable_of_occurs ho)
  rw [hf0] at hg0
  cases hg0
  rw [hzero]
  exact Nat.zero_le _

/-- **Handlers.**  Of two different handlers one stands above the other. -/
theorem handlers_apart (s : Stages model c) {f g : String} (hf : f ∈ handlerNames c.forest)
    (hg : g ∈ handlerNames c.forest) (hne : f ≠ g) :
    ∃ F G, c.program.find? f = some F ∧ c.program.find? g = some G ∧
      ∀ file, (F.window file).Apart (G.window file) := by
  obtain ⟨r, r', hr, hr', hord⟩ :=
    s.topping.ordered f hf g hg List.not_mem_nil List.not_mem_nil hne
  obtain ⟨F, hF, hwF⟩ := s.window_final (s.reachable_of_handler hf) hr
  obtain ⟨G, hG, hwG⟩ := s.window_final (s.reachable_of_handler hg) hr'
  refine ⟨F, G, hF, hG, fun file => ?_⟩
  rw [hwF, hwG]
  rcases hord file with hle | hle
  · exact Window.apart_of_le hle
  · exact (Window.apart_of_le hle).symm

/-- **Interrupts.**  A handler stands above what belongs to the main line. -/
theorem interrupt_apart (s : Stages model c) {f g : String} (hf : c.forest.main.Occurs f)
    (hg : g ∈ handlerNames c.forest) (hne : f ≠ g) :
    ∃ F G, c.program.find? f = some F ∧ c.program.find? g = some G ∧
      ∀ file, (F.window file).Apart (G.window file) := by
  by_cases hfh : f ∈ handlerNames c.forest
  · exact s.handlers_apart hfh hg hne
  · obtain ⟨_, k, _, _, _, hk, _⟩ := s.find?_final (s.reachable_of_occurs hf)
    have hr : s.storage.raised.find? f = some k := by
      rw [s.topping.others f (.inr hfh)]
      exact hk
    obtain ⟨r', hr', hbetween⟩ := s.topping.between g hg List.not_mem_nil
    obtain ⟨F, hF, hwF⟩ := s.window_final (s.reachable_of_occurs hf) hr
    obtain ⟨G, hG, hwG⟩ := s.window_final (s.reachable_of_handler hg) hr'
    refine ⟨F, G, hF, hG, fun file => ?_⟩
    rw [hwF, hwG]
    have hdisc := (Calls.mem_discovery_iff s.rooted.main_unfolds).mpr hf
    have hwater := (Storage.highWater_eq_ok s.storage.mainLine_eq file).2 f hdisc k hk
    exact Window.apart_of_le (Nat.le_trans hwater (hbetween file).1)

/-- **Globals.**  Every window starts behind the cells of the globals. -/
theorem free_le (s : Stages model c) {label : String} (h : label ∈ c.forest.reachable) :
    ∃ F, c.program.find? label = some F ∧
      ∀ file, s.storage.cursors.mark.at file ≤ (F.window file).base := by
  obtain ⟨_, k, r, _, _, hk, hr, _⟩ := s.find?_final h
  obtain ⟨F, hF, hw⟩ := s.window_final h hr
  refine ⟨F, hF, fun file => ?_⟩
  rw [hw]
  by_cases hh : label ∈ handlerNames c.forest
  · obtain ⟨r', hr', hbetween⟩ := s.topping.between label hh List.not_mem_nil
    rw [hr] at hr'
    cases hr'
    have hwater := (Storage.highWater_eq_ok s.storage.mainLine_eq file).1
    exact Nat.le_trans hwater (hbetween file).1
  · rcases s.rooted.mem_reachable_iff.mp h with ⟨t, ht, rfl⟩ | ⟨t, ht, rfl⟩
    · rw [s.topping.others t.name (.inr hh), hk] at hr
      cases hr
      obtain ⟨n, hn⟩ := Storage.Standing.exists_of_within
        (Storage.sizes s.storage.framed) ht s.storage.free
      have hreach := s.raising.reaches _ List.mem_cons_self t.name n hn k hk file
      exact Nat.le_trans (hn.le file) hreach
    · exact absurd (List.mem_map.mpr ⟨t, ht, rfl⟩) hh

end Stages

namespace Storage

/-- A window that starts at or above a mark does not overlap what is below it, and the
comparison only traps if the mark is out of range. -/
theorem overlaps_low {P : Failure → Prop} {w : Window} {n : Nat} (h : n ≤ w.base)
    (htrap : wordLimit ≤ n → P .trap) :
    FailsOnly P (w.overlaps { base := 0, count := n }) ∧
      ∀ b, w.overlaps { base := 0, count := n } = .ok b → b = false := by
  have htop : ∀ top, Window.upper { base := 0, count := n } = .ok top → ¬w.base < top := by
    intro top htop
    have htop := Window.upper_eq_ok htop
    simp only [Nat.zero_add] at htop
    omega
  unfold Window.overlaps
  split
  · exact ⟨.ok _, by intro b hb; cases hb; rfl⟩
  · constructor
    · refine (FailsOnly.checkWord_of fun hlimit => htrap (by simpa using hlimit)).chain
        fun top hok => ?_
      rw [if_neg (htop top hok)]
      exact .ok _
    · intro b hb
      obtain ⟨top, hok, hb⟩ := bind_eq_ok.mp hb
      rw [if_neg (htop top hok)] at hb
      cases hb
      rfl

/-- Handlers that stand above the mark pass the check, unless the mark is out of range. -/
theorem failsOnly_checkHandlers {P : Failure → Prop} {p : Program} {m : Mark}
    (htrap : ∀ file, wordLimit ≤ m.at file → P .trap) :
    ∀ {labels : List String}, (∀ label ∈ labels, ∀ f, p.find? label = some f →
        ∀ file, m.at file ≤ (f.window file).base) →
      FailsOnly P (checkHandlers p m labels)
  | [], _ => .ok _
  | label :: rest, hlow => by
    have hrest : ∀ label ∈ rest, ∀ f, p.find? label = some f →
        ∀ file, m.at file ≤ (f.window file).base :=
      fun label hlabel => hlow label (List.mem_cons_of_mem _ hlabel)
    rw [checkHandlers]
    cases hf : p.find? label with
    | none => exact failsOnly_checkHandlers htrap hrest
    | some f =>
        have hlow := hlow label List.mem_cons_self f hf
        obtain ⟨hr, hrfalse⟩ := overlaps_low (hlow .register) (htrap .register)
        obtain ⟨hb, hbfalse⟩ := overlaps_low (hlow .bit) (htrap .bit)
        have hreach : FailsOnly P (reachesBelow m f) := by
          refine hr.bind fun r => ?_
          split
          · exact .ok _
          · exact hb
        have hfalse : ∀ b, reachesBelow m f = .ok b → b = false := by
          intro b hbelow
          obtain ⟨r, hr, hbelow⟩ := bind_eq_ok.mp hbelow
          rw [hrfalse r hr] at hbelow
          exact hbfalse b hbelow
        refine hreach.chain fun b hb => ?_
        rw [hfalse b hb]
        exact failsOnly_checkHandlers htrap hrest

/-- What the handlers' trees discover starts at or above the mark below the handlers. -/
theorem Topping.le_base {model : Model.Program} {prog p q : Program} {forest : Forest} {m n : Mark}
    (hrooted : Forest.Rooted model prog forest)
    (htop : Topping p m [] (forest.interrupts.map (·.2.name)) q n) {label : String}
    (hlabel : label ∈ forest.interrupts.flatMap fun h => h.2.discovery) {f : Function}
    (hf : q.find? label = some f) (file : File) : m.at file ≤ (f.window file).base := by
  obtain ⟨t, ht, hdisc⟩ := List.mem_flatMap.mp hlabel
  obtain ⟨u, hu, rfl⟩ := (Calls.mem_discovery_iff (hrooted.handler_unfolds t ht)).mp hdisc
  rw [hrooted.handler_eq ht] at hu
  cases hu with
  | refl =>
      obtain ⟨g, hg, hbetween⟩ := htop.between t.2.name (List.mem_map.mpr ⟨t, ht, rfl⟩)
        List.not_mem_nil
      rw [CallTree.name, hg] at hf
      cases hf
      exact (hbetween file).1
  | under hchild _ => cases hchild

/-- **The check of the handlers' windows never fails**, for a forest of some program and
windows of whatever program.  So an allocation refuses a program, or a function gets no
frame. -/
theorem failsOnly_allocate_of_frames {model : Model.Program} {p : Program} {forest : Forest}
    (hforest : Forest.build model p = .ok forest) (q : Program) {P : Failure → Prop}
    (hrefusal : ∀ e, Refusal e → P e)
    (hframes : ∀ constants cursors, placeConstants model = .ok constants →
      placeVariables model forest constants.addresses = .ok cursors →
      FailsOnly P (frames model cursors.addresses q forest.reachable)) :
    FailsOnly P (allocate model q forest) := by
  have hrooted := Forest.rooted_of_build hforest
  refine ((refusal_placeConstants model).mono hrefusal).chain fun constants hconstants => ?_
  refine ((refusal_placeVariables model forest _).mono hrefusal).chain fun cursors hcursors => ?_
  refine (hframes constants cursors hconstants hcursors).bind fun framed => ?_
  refine FailsOnly.mono ?_ hrefusal
  refine (refusal_stack _ _ _).bind fun stacked => ?_
  refine (refusal_highWater _ _ _).bind fun mainLine => ?_
  refine (refusal_stackHandlers _ _ _ _).chain fun ⟨raised, top⟩ hraised => ?_
  have htop := topping_of_stackHandlers (fun _ hh => hrooted.handler_eq hh) hraised
  refine (failsOnly_checkHandlers (fun _ _ => refusal_trap)
    fun _ hlabel _ hf file => htop.le_base hrooted hlabel hf file).bind fun _ =>
    (failsOnly_anchorAll (Calls.nodup_distinct _) fun _ _ _ _ =>
      ⟨.inl refusal_trap, fun _ _ => refusal_trap⟩).bind fun _ => .ok _

theorem failsOnly_allocate {model : Model.Program} {p : Program} {forest : Forest}
    (hforest : Forest.build model p = .ok forest) (q : Program) :
    FailsOnly NoOverlap (allocate model q forest) :=
  failsOnly_allocate_of_frames hforest q (fun _ => Refusal.noOverlap)
    fun _ _ _ _ => failsOnly_frames admits_noOverlap model _ (Calls.nodup_distinct _)
      fun _ _ _ _ => .inl noOverlap_trap

end Storage

/-- **Functions that are active together share no storage.**  In an accepted
build the windows of two different functions that can be active at the same time
are apart in both files.  Every window starts at or above the first cell that the
globals leave free, so it holds no scratch cell and no cell given to a global from
a cursor.  And for the forest of any program, the check of the handlers' windows
never reports an overlap. -/
theorem active_windows_apart (model : Model.Program) :
    (∀ c, build model = .ok c →
      (∀ f g, f ≠ g → ActiveTogether model c.forest f g →
        ∃ F G, c.program.find? f = some F ∧ c.program.find? g = some G ∧
          ∀ file, (F.window file).Apart (G.window file)) ∧
      ∃ constants cursors, Storage.placeConstants model = .ok constants ∧
        Storage.placeVariables model c.forest constants.addresses = .ok cursors ∧
        ∀ label ∈ c.layout.order, ∃ F, c.program.find? label = some F ∧
          ∀ file, cursors.mark.at file ≤ (F.window file).base ∧
            ∀ address, (F.window file).Holds address → Storage.scratch file ≤ address ∧
              ¬Storage.Gives file { addresses := constants.addresses }
                (Storage.placedGlobals model c.forest) address) ∧
    ∀ p forest, Forest.build model p = .ok forest → ∀ q position label index,
      Storage.allocate model q forest ≠
        .error (.error ⟨position, .internal label index .windowOverlap⟩) := by
  refine ⟨fun c h => ?_, fun p forest hforest q position label index herror => ?_⟩
  · obtain ⟨s⟩ := stages_of_build h
    refine ⟨fun f g hne hactive => ?_, s.storage.constants, s.storage.cursors,
      s.storage.constants_eq, s.storage.cursors_eq, fun label hlabel => ?_⟩
    · cases hactive with
      | chain habove =>
          obtain ⟨F, G, hF, hG, hle⟩ := s.chain_le habove
          exact ⟨F, G, hF, hG, fun file => Window.apart_of_le (hle file)⟩
      | interrupt hf hg => exact s.interrupt_apart hf (s.mem_handlerNames hg) hne
      | handlers hf hg => exact s.handlers_apart (s.mem_handlerNames hf) (s.mem_handlerNames hg) hne
    · rw [s.order_eq] at hlabel
      obtain ⟨F, hF, hfree⟩ := s.free_le hlabel
      refine ⟨F, hF, fun file => ⟨hfree file, fun address haddress => ?_⟩⟩
      have hbase := Nat.le_trans (hfree file) haddress.1
      refine ⟨Nat.le_trans (Storage.scratch_le s.storage.cursors_eq file) hbase, fun hgive => ?_⟩
      have hlt := Storage.gives_lt (Storage.placeAll_of_placeVariables s.storage.cursors_eq) hgive
      omega
  · exact Storage.failsOnly_allocate hforest q _ herror position label index rfl

/-- A program whose entry calls `f` and `g`, where `f` calls `g` too, with a word
variable in each function and in the module, and a handler at level 3. -/
def sharedCallee : Model.Program :=
  let word : Model.Symbol := .word
  let entry : Model.Function :=
    ({ label := "demo.main" } : Model.Function).addSymbol "x" word
      |>.withBody [.call "f" [], .call "g" []]
  let f : Model.Function :=
    ({ label := "demo.f" } : Model.Function).addSymbol "y" word |>.withBody [.call "g" []]
  let g : Model.Function := ({ label := "demo.g" } : Model.Function).addSymbol "z" word
  let tick : Model.Function := { label := "demo.tick", isr := true }
  let demo : Model.Module :=
    (({} : Model.Module).addSymbol "count" word).addFunction entry
      |>.addFunction f |>.addFunction g |>.addFunction tick
  { name := "demo"
    vectors := ⟨none :: none :: some "demo.tick" :: List.replicate 12 none, rfl⟩
    modules := Table.empty.insert "demo" demo }

/-- The entry of `sharedCallee` and the function that it reaches on two chains are
apart. -/
theorem active_windows_apart_sharedCallee :
    ∃ c, build sharedCallee = .ok c ∧ ∃ F G, c.program.find? "demo.main" = some F ∧
      c.program.find? "demo.g" = some G ∧ ∀ file, (F.window file).Apart (G.window file) := by
  have hshape : (build sharedCallee).toOption.map
      (fun c => (c.forest.main.name, c.forest.main.calls.map CallTree.name)) =
      some ("demo.main", ["demo.f", "demo.g"]) := by decide +kernel
  cases hbuild : build sharedCallee with
  | error e =>
      rw [hbuild] at hshape
      cases hshape
  | ok c =>
      rw [hbuild] at hshape
      have hpair := Option.some.inj hshape
      have hname : c.forest.main.name = "demo.main" := congrArg Prod.fst hpair
      have hcalls : c.forest.main.calls.map CallTree.name = ["demo.f", "demo.g"] :=
        congrArg Prod.snd hpair
      have hmem : "demo.g" ∈ c.forest.main.calls.map CallTree.name := by
        rw [hcalls]
        decide
      obtain ⟨child, hchild, hg⟩ := List.mem_map.mp hmem
      have habove : c.forest.main.Above "demo.main" "demo.g" :=
        ⟨c.forest.main, child, .refl, hname, hchild, child, .refl, hg⟩
      exact ⟨c, rfl, ((active_windows_apart sharedCallee).1 c hbuild).1 _ _ (by decide)
        (.chain habove)⟩

end Stackless
