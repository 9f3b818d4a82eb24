import Stackless.Proofs.Stages

/-!
# How windows stand on one another

Stacking a call tree puts the root on a mark and every callee on the mark above
its caller.  A function that occurs at several nodes is put on several marks and
keeps the highest, for each file by itself; its callees are put on the mark of
the node at hand and not on that highest one.

`Standing size m tree name n` says that `name` is put on the mark `n` at some node
when `tree` is put on `m`.  A stacking is described by it:

* `Raising.reaches` — a window starts at or above every mark its function stands
  on;
* `Raising.attains` — a window that was raised starts exactly at one of them;
* `Raising.callee_above_caller` — **callees stand above their callers.**  The node
  that gives the caller its base has the same tree below it as every other node
  of that name, so from there every callee is put above the caller's window.
-/

namespace Stackless

/-- The window of a function in a file. -/
def Flat.Function.window (f : Flat.Function) : Flat.File → Flat.Window
  | .register => f.registers
  | .bit => f.bits

/-- The address belongs to the window. -/
def Flat.Window.Holds (w : Flat.Window) (address : Nat) : Prop :=
  w.base ≤ address ∧ address < w.base + w.count

/-- No address belongs to both windows. -/
def Flat.Window.Apart (w v : Flat.Window) : Prop :=
  ∀ address, w.Holds address → ¬v.Holds address

/-- A window that ends where another starts, or below, is apart from it. -/
theorem Flat.Window.apart_of_le {w v : Flat.Window} (h : w.base + w.count ≤ v.base) :
    w.Apart v := by
  intro address hw hv
  have := hw.2
  have := hv.1
  omega

theorem Flat.Window.Apart.symm {w v : Flat.Window} (h : w.Apart v) : v.Apart w :=
  fun address hv hw => h address hw hv

/-- An upper end that was computed is the base and the count together. -/
theorem Flat.Window.upper_eq_ok {w : Flat.Window} {n : Nat} (h : w.upper = .ok n) :
    w.base + w.count = n :=
  (checkWord_eq_ok.mp h).2

namespace Storage

open Flat (Program Function Window File)
open Calls (CallTree Forest Unfolds)
open Calls.CallTree (Within Occurs)

/-- The free address of a file. -/
def Mark.at (m : Mark) : File → Nat
  | .register => m.registers
  | .bit => m.bits

/-- A mark raised by as many slots as another one counts. -/
def Mark.plus (m n : Mark) : Mark :=
  ⟨m.registers + n.registers, m.bits + n.bits⟩

@[simp]
theorem Mark.at_plus (m n : Mark) (file : File) : (m.plus n).at file = m.at file + n.at file := by
  cases file with
  | register => rfl
  | bit => rfl

/-- How many slots a function of a program has in both files. -/
def sizes (p : Program) (name : String) : Mark :=
  match p.find? name with
  | some f => ⟨f.registers.count, f.bits.count⟩
  | none => ⟨0, 0⟩

/-- The count of a window is the function's size. -/
theorem at_sizes {p : Program} {name : String} {f : Function} (h : p.find? name = some f)
    (file : File) : (sizes p name).at file = (f.window file).count := by
  cases file with
  | register => simp only [sizes, h, Mark.at, Function.window]
  | bit => simp only [sizes, h, Mark.at, Function.window]

/-- The mark above a function is the mark raised by its size. -/
theorem above_eq_ok {p : Program} {name : String} {f : Function} (hf : p.find? name = some f)
    {m n : Mark} (h : m.above f = .ok n) : n = m.plus (sizes p name) := by
  obtain ⟨registers, hregisters, h⟩ := bind_eq_ok.mp h
  obtain ⟨bits, hbits, h⟩ := bind_eq_ok.mp h
  cases h
  rw [← (checkWord_eq_ok.mp hregisters).2, ← (checkWord_eq_ok.mp hbits).2]
  simp only [sizes, hf, Mark.plus]

/-- When the tree is put on the mark `m`, the function `name` is put on the mark
`n` at some node. -/
inductive Standing (size : String → Mark) : Mark → CallTree → String → Mark → Prop
  | root {m : Mark} {name : String} {calls : List CallTree} :
      Standing size m (.node name calls) name m
  | call {m n : Mark} {name callee : String} {calls : List CallTree} {child : CallTree} :
      child ∈ calls → Standing size (m.plus (size name)) child callee n →
      Standing size m (.node name calls) callee n

namespace Standing

variable {size : String → Mark}

/-- What stands in a tree put on a mark stands at or above it. -/
theorem le {m n : Mark} {tree : CallTree} {name : String} (h : Standing size m tree name n)
    (file : File) : m.at file ≤ n.at file := by
  induction h with
  | root => exact Nat.le_refl _
  | call _ _ ih =>
      rw [Mark.at_plus] at ih
      omega

/-- Every name of a tree stands somewhere. -/
theorem exists_of_within (size : String → Mark) {t tree : CallTree} (h : Within t tree) (m : Mark) :
    ∃ n, Standing size m tree t.name n := by
  induction h generalizing m with
  | refl =>
      cases t with
      | node name calls => exact ⟨m, .root⟩
  | @under name calls child hchild _ ih =>
      obtain ⟨n, hn⟩ := ih (m.plus (size name))
      exact ⟨n, .call hchild hn⟩

/-- What stands is the root of a node, and what stands below that node put on its
mark stands in the whole tree. -/
theorem exists_node {m n : Mark} {tree : CallTree} {name : String}
    (h : Standing size m tree name n) :
    ∃ t, Within t tree ∧ t.name = name ∧
      ∀ other k, Standing size n t other k → Standing size m tree other k := by
  induction h with
  | @root m name calls => exact ⟨.node name calls, .refl, rfl, fun _ _ h => h⟩
  | call hchild _ ih =>
      obtain ⟨t, ht, hname, hbelow⟩ := ih
      exact ⟨t, .under hchild ht, hname, fun other k hk => .call hchild (hbelow other k hk)⟩

theorem occurs {m n : Mark} {tree : CallTree} {name : String}
    (h : Standing size m tree name n) : tree.Occurs name := by
  obtain ⟨t, ht, hname, _⟩ := h.exists_node
  exact ⟨t, ht, hname⟩

end Standing

/-- A function differs from another at most in the bases of its windows. -/
def SameBut (f g : Function) : Prop :=
  ∃ r b, g = { f with
    registers := { f.registers with base := r }
    bits := { f.bits with base := b } }

/-- Functions that differ only in bases are one if the bases are the same. -/
theorem SameBut.eq_of_base {f g : Function} (h : SameBut f g)
    (hbase : ∀ file, (g.window file).base = (f.window file).base) : g = f := by
  obtain ⟨r, b, rfl⟩ := h
  have hr : r = f.registers.base := hbase .register
  have hb : b = f.bits.base := hbase .bit
  rw [hr, hb]

/-- The counts of functions that differ only in bases are the same. -/
theorem SameBut.count_eq {f g : Function} (h : SameBut f g) (file : File) :
    (g.window file).count = (f.window file).count := by
  obtain ⟨r, b, rfl⟩ := h
  cases file with
  | register => rfl
  | bit => rfl

theorem SameBut.trans {f g k : Function} (hfg : SameBut f g) (hgk : SameBut g k) : SameBut f k := by
  obtain ⟨_, _, rfl⟩ := hfg
  obtain ⟨r, b, rfl⟩ := hgk
  exact ⟨r, b, rfl⟩

theorem sameBut_raise (f : Function) (m : Mark) : SameBut f (raise f m) :=
  ⟨_, _, rfl⟩

theorem base_raise (f : Function) (m : Mark) (file : File) :
    ((raise f m).window file).base = max (f.window file).base (m.at file) := by
  cases file with
  | register => rfl
  | bit => rfl

theorem window_of_anchor {f g : Function} (h : anchor f = .ok g) (file : File) :
    g.window file = f.window file := by
  obtain ⟨_, _, _, _, rfl⟩ := anchor_eq_ok h
  cases file with
  | register => rfl
  | bit => rfl

/-- Raising a function leaves all sizes alone. -/
theorem sizes_insert_raise {p : Program} {name : String} {f : Function}
    (hf : p.find? name = some f) (m : Mark) : sizes (p.insert name (raise f m)) = sizes p := by
  funext other
  by_cases hother : other = name
  · subst hother
    simp only [sizes, Table.find?_insert_self, hf, raise]
  · simp only [sizes, Table.find?_insert_of_ne _ _ hother]

/-- What it means that trees of a program were put on a mark. -/
structure Raising (p : Program) (m : Mark) (trees : List CallTree) (q : Program) : Prop where
  /-- No function appears, disappears or changes but in its bases. -/
  names : ∀ name, p.find? name = none → q.find? name = none
  same : ∀ name f, p.find? name = some f → ∃ g, q.find? name = some g ∧ SameBut f g
  /-- Windows only go up. -/
  le : ∀ name f g, p.find? name = some f → q.find? name = some g →
    ∀ file, (f.window file).base ≤ (g.window file).base
  /-- A window starts at or above every mark its function stands on. -/
  reaches : ∀ t ∈ trees, ∀ name n, Standing (sizes p) m t name n → ∀ g, q.find? name = some g →
    ∀ file, n.at file ≤ (g.window file).base
  /-- A window that went up starts at a mark its function stands on. -/
  attains : ∀ name f g, p.find? name = some f → q.find? name = some g →
    ∀ file, (g.window file).base = (f.window file).base ∨
      ∃ t ∈ trees, ∃ n, Standing (sizes p) m t name n ∧ (g.window file).base = n.at file

namespace Raising

variable {p q r : Program} {m : Mark}

/-- Putting no tree anywhere changes nothing. -/
theorem nil (p : Program) (m : Mark) : Raising p m [] p where
  names := fun _ h => h
  same := fun _ f h => ⟨f, h, f.registers.base, f.bits.base, rfl⟩
  le := by
    intro name f g hf hg file
    rw [hf] at hg
    cases hg
    exact Nat.le_refl _
  reaches := by
    intro t ht
    cases ht
  attains := by
    intro name f g hf hg file
    rw [hf] at hg
    cases hg
    exact .inl rfl

/-- A function that is found afterwards was there before. -/
theorem exists_before {trees : List CallTree} (h : Raising p m trees q) {name : String}
    {g : Function} (hg : q.find? name = some g) : ∃ f, p.find? name = some f ∧ SameBut f g := by
  cases hf : p.find? name with
  | none =>
      rw [h.names name hf] at hg
      cases hg
  | some f =>
      obtain ⟨g', hg', hsame⟩ := h.same name f hf
      rw [hg] at hg'
      cases hg'
      exact ⟨f, rfl, hsame⟩

/-- Sizes do not change. -/
theorem sizes_eq {trees : List CallTree} (h : Raising p m trees q) : sizes q = sizes p := by
  funext name
  cases hf : p.find? name with
  | none => simp only [sizes, hf, h.names name hf]
  | some f =>
      obtain ⟨g, hg, _, _, rfl⟩ := h.same name f hf
      simp only [sizes, hf, hg]

/-- Putting trees on a mark one after another. -/
theorem append {first rest : List CallTree} (h1 : Raising p m first q)
    (h2 : Raising q m rest r) : Raising p m (first ++ rest) r where
  names := fun name h => h2.names name (h1.names name h)
  same := by
    intro name f hf
    obtain ⟨g, hg, hfg⟩ := h1.same name f hf
    obtain ⟨k, hk, hgk⟩ := h2.same name g hg
    exact ⟨k, hk, hfg.trans hgk⟩
  le := by
    intro name f k hf hk file
    obtain ⟨g, hg, _⟩ := h1.same name f hf
    exact Nat.le_trans (h1.le name f g hf hg file) (h2.le name g k hg hk file)
  reaches := by
    intro t ht name n hn k hk file
    rcases List.mem_append.mp ht with ht | ht
    · obtain ⟨g, hg, _⟩ := h2.exists_before hk
      exact Nat.le_trans (h1.reaches t ht name n hn g hg file) (h2.le name g k hg hk file)
    · exact h2.reaches t ht name n (h1.sizes_eq ▸ hn) k hk file
  attains := by
    intro name f k hf hk file
    obtain ⟨g, hg, _⟩ := h1.same name f hf
    rcases h2.attains name g k hg hk file with h | ⟨t, ht, n, hn, h⟩
    · rcases h1.attains name f g hf hg file with h' | ⟨t, ht, n, hn, h'⟩
      · exact .inl (h.trans h')
      · exact .inr ⟨t, List.mem_append_left _ ht, n, hn, h.trans h'⟩
    · exact .inr ⟨t, List.mem_append_right _ ht, n, h1.sizes_eq ▸ hn, h⟩

/-- Putting a root on a mark and its calls above it. -/
theorem node {name : String} {f : Function} {calls : List CallTree} (hf : p.find? name = some f)
    (h : Raising (p.insert name (raise f m)) (m.plus (sizes p name)) calls q) :
    Raising p m [.node name calls] q := by
  have hsizes := sizes_insert_raise hf m
  have hmid : ∀ other g, p.find? other = some g →
      ∃ g', (p.insert name (raise f m)).find? other = some g' ∧ SameBut g g' ∧
        ∀ file, (g.window file).base ≤ (g'.window file).base ∧
          ((g'.window file).base = (g.window file).base ∨
            (other = name ∧ (g'.window file).base = m.at file)) := by
    intro other g hg
    by_cases hother : other = name
    · subst hother
      rw [hf] at hg
      cases hg
      refine ⟨raise f m, Table.find?_insert_self _ _ _, sameBut_raise f m, fun file => ?_⟩
      rw [base_raise]
      rcases Nat.le_total (m.at file) (f.window file).base with hle | hle
      · exact ⟨Nat.le_max_left _ _, .inl (Nat.max_eq_left hle)⟩
      · exact ⟨Nat.le_max_left _ _, .inr ⟨rfl, Nat.max_eq_right hle⟩⟩
    · exact ⟨g, by rw [Table.find?_insert_of_ne _ _ hother]; exact hg,
        ⟨_, _, rfl⟩, fun file => ⟨Nat.le_refl _, .inl rfl⟩⟩
  refine ⟨?_, ?_, ?_, ?_, ?_⟩
  · intro other hnone
    have hother : other ≠ name := by
      rintro rfl
      rw [hf] at hnone
      cases hnone
    exact h.names other (by rw [Table.find?_insert_of_ne _ _ hother]; exact hnone)
  · intro other g hg
    obtain ⟨g', hg', hsame, _⟩ := hmid other g hg
    obtain ⟨k, hk, hsame'⟩ := h.same other g' hg'
    exact ⟨k, hk, hsame.trans hsame'⟩
  · intro other g k hg hk file
    obtain ⟨g', hg', _, hbase⟩ := hmid other g hg
    exact Nat.le_trans (hbase file).1 (h.le other g' k hg' hk file)
  · intro t ht other n hn k hk file
    rw [List.mem_singleton.mp ht] at hn
    cases hn with
    | root =>
        have hle := h.le name (raise f m) k (Table.find?_insert_self _ _ _) hk file
        rw [base_raise] at hle
        exact Nat.le_trans (Nat.le_max_right _ _) hle
    | call hchild hn => exact h.reaches _ hchild other n (hsizes.symm ▸ hn) k hk file
  · intro other g k hg hk file
    obtain ⟨g', hg', _, hbase⟩ := hmid other g hg
    rcases h.attains other g' k hg' hk file with hsame | ⟨t, ht, n, hn, heq⟩
    · rcases (hbase file).2 with hb | ⟨rfl, hb⟩
      · exact .inl (hsame.trans hb)
      · exact .inr ⟨_, List.mem_cons_self, m, .root, hsame.trans hb⟩
    · exact .inr ⟨_, List.mem_cons_self, n, .call ht (hsizes ▸ hn), heq⟩

/-- Putting one function on a mark moves no other: another one stands nowhere. -/
theorem find?_of_ne {p mid : Program} {m : Mark} {name other : String}
    (h : Raising p m [.node name []] mid) (hne : other ≠ name) :
    mid.find? other = p.find? other := by
  cases hp : p.find? other with
  | none => exact h.names other hp
  | some f =>
      obtain ⟨g, hg, hsame⟩ := h.same other f hp
      rw [hg, hsame.eq_of_base fun file => ?_]
      rcases h.attains other f g hp hg file with hkept | ⟨t, ht, n, hn, _⟩
      · exact hkept
      · rw [List.mem_singleton.mp ht] at hn
        cases hn with
        | root => exact absurd rfl hne
        | call hchild _ => cases hchild

end Raising

mutual

/-- A tree that was stacked was put on its mark. -/
theorem raising_of_stack {p q : Program} {m : Mark} :
    ∀ {tree : CallTree}, stack p m tree = .ok q → Raising p m [tree] q
  | .node name calls, h => by
    rw [stack] at h
    cases hf : p.find? name with
    | none =>
        rw [hf] at h
        cases h
    | some f =>
        rw [hf] at h
        obtain ⟨above, habove, h⟩ := bind_eq_ok.mp h
        rw [above_eq_ok hf habove] at h
        exact .node hf (raising_of_stackAll h)

/-- Trees that were stacked were put on their mark. -/
theorem raising_of_stackAll {p q : Program} {m : Mark} :
    ∀ {trees : List CallTree}, stackAll p m trees = .ok q → Raising p m trees q
  | [], h => by
    rw [stackAll] at h
    cases h
    exact .nil p m
  | tree :: rest, h => by
    rw [stackAll] at h
    obtain ⟨mid, hmid, h⟩ := bind_eq_ok.mp h
    exact (raising_of_stack hmid).append (raising_of_stackAll h)

end

/-- **Callees stand above their callers.**  Where trees unfold by name and no
window started above the mark, the window of a function ends below the window of
every function that it calls, directly or not. -/
theorem Raising.callee_above_caller {prog p q : Program} {m : Mark} {tree : CallTree}
    (h : Raising p m [tree] q) (hunf : Unfolds prog tree)
    (hlow : ∀ name f, p.find? name = some f → tree.Occurs name →
      ∀ file, (f.window file).base ≤ m.at file)
    {f g : String} (habove : tree.Above f g) {F G : Function} (hF : q.find? f = some F)
    (hG : q.find? g = some G) (file : File) :
    (F.window file).base + (F.window file).count ≤ (G.window file).base := by
  obtain ⟨t, child, ht, rfl, hchild, u, hu, rfl⟩ := habove
  obtain ⟨F0, hF0, hsame⟩ := h.exists_before hF
  -- some node of the caller's name is put exactly where its window starts
  have hattained : ∃ n, Standing (sizes p) m tree t.name n ∧
      (F.window file).base = n.at file := by
    rcases h.attains t.name F0 F hF0 hF file with heq | ⟨t', ht', n, hn, heq⟩
    · obtain ⟨n, hn⟩ := Standing.exists_of_within (sizes p) ht m
      have hlow := hlow t.name F0 hF0 ⟨t, ht, rfl⟩ file
      have hup := h.reaches tree List.mem_cons_self t.name n hn F hF file
      have hmn := hn.le file
      exact ⟨n, hn, by omega⟩
    · rw [List.mem_singleton.mp ht'] at hn
      exact ⟨n, hn, heq⟩
  obtain ⟨n, hn, hbase⟩ := hattained
  obtain ⟨t', ht', hname, hbelow⟩ := hn.exists_node
  have heq : t' = t := (hunf.within ht').eq_of_name_eq t (hunf.within ht) hname
  subst heq
  obtain ⟨k, hk⟩ := Standing.exists_of_within (sizes p) hu (n.plus (sizes p t'.name))
  have hcall : Standing (sizes p) n t' u.name k := by
    cases t' with
    | node name calls => exact .call hchild hk
  have hreach := h.reaches tree List.mem_cons_self u.name k (hbelow u.name k hcall) G hG file
  have hstep := hk.le file
  rw [Mark.at_plus, at_sizes hF0] at hstep
  have hcount := hsame.count_eq file
  omega

/-- A mark that covers a function is at least as high as before and as the
function's windows. -/
theorem cover_eq_ok {m n : Mark} {f : Function} (h : m.cover f = .ok n) (file : File) :
    m.at file ≤ n.at file ∧ (f.window file).base + (f.window file).count ≤ n.at file := by
  obtain ⟨registers, hregisters, h⟩ := bind_eq_ok.mp h
  obtain ⟨bits, hbits, h⟩ := bind_eq_ok.mp h
  cases h
  have hr := Window.upper_eq_ok hregisters
  have hb := Window.upper_eq_ok hbits
  cases file with
  | register => exact ⟨Nat.le_max_left _ _, hr ▸ Nat.le_max_right _ _⟩
  | bit => exact ⟨Nat.le_max_left _ _, hb ▸ Nat.le_max_right _ _⟩

/-- Covering functions one after another covers each. -/
theorem foldlM_cover_eq_ok (file : File) :
    ∀ {fs : List Function} {m n : Mark}, fs.foldlM Mark.cover m = .ok n →
      m.at file ≤ n.at file ∧
      ∀ f ∈ fs, (f.window file).base + (f.window file).count ≤ n.at file
  | [], m, n, h => by
    cases h
    exact ⟨Nat.le_refl _, by simp⟩
  | f :: rest, m, n, h => by
    rw [List.foldlM_cons] at h
    obtain ⟨mid, hmid, h⟩ := bind_eq_ok.mp h
    obtain ⟨hle, hf⟩ := cover_eq_ok hmid file
    obtain ⟨hle', hrest⟩ := foldlM_cover_eq_ok file h
    refine ⟨Nat.le_trans hle hle', fun g hg => ?_⟩
    rcases List.mem_cons.mp hg with rfl | hg
    · exact Nat.le_trans hf hle'
    · exact hrest g hg

/-- The high-water mark covers all functions that the tree discovers. -/
theorem highWater_eq_ok {p : Program} {m n : Mark} {tree : CallTree}
    (h : highWater p m tree = .ok n) (file : File) :
    m.at file ≤ n.at file ∧ ∀ name ∈ tree.discovery, ∀ f, p.find? name = some f →
      (f.window file).base + (f.window file).count ≤ n.at file := by
  obtain ⟨hle, hall⟩ := foldlM_cover_eq_ok file h
  refine ⟨hle, fun name hname f hf => ?_⟩
  exact hall f (List.mem_filterMap.mpr ⟨name, hname, hf⟩)

/-- What it means that handlers were put above a mark, one above the other, when
some had been placed before. -/
structure Topping (p : Program) (m : Mark) (placed : List String) (names : List String)
    (q : Program) (n : Mark) : Prop where
  le : ∀ file, m.at file ≤ n.at file
  /-- Only the handlers move, and each at most once. -/
  others : ∀ name, name ∈ placed ∨ name ∉ names → q.find? name = p.find? name
  same : ∀ name f, p.find? name = some f → ∃ g, q.find? name = some g ∧ SameBut f g
  /-- A handler that moves stands between the two marks. -/
  between : ∀ name ∈ names, name ∉ placed → ∃ g, q.find? name = some g ∧
    ∀ file, m.at file ≤ (g.window file).base ∧
      (g.window file).base + (g.window file).count ≤ n.at file
  /-- Of two handlers that move, one stands above the other. -/
  ordered : ∀ a ∈ names, ∀ b ∈ names, a ∉ placed → b ∉ placed → a ≠ b →
    ∃ f g, q.find? a = some f ∧ q.find? b = some g ∧
      ∀ file, (f.window file).base + (f.window file).count ≤ (g.window file).base ∨
        (g.window file).base + (g.window file).count ≤ (f.window file).base

namespace Topping

/-- A handler that was placed before stays where it is. -/
theorem skip {p q : Program} {m n : Mark} {placed names : List String} {name : String}
    (hplaced : name ∈ placed) (h : Topping p m placed names q n) :
    Topping p m placed (name :: names) q n where
  le := h.le
  others := by
    intro other hother
    rcases hother with hin | hout
    · exact h.others other (.inl hin)
    · exact h.others other (.inr (mt (List.mem_cons_of_mem _) hout))
  same := h.same
  between := by
    intro other hmem hnew
    rcases List.mem_cons.mp hmem with rfl | hmem
    · exact absurd hplaced hnew
    · exact h.between other hmem hnew
  ordered := by
    intro a ha b hb hna hnb
    rcases List.mem_cons.mp ha with rfl | ha
    · exact absurd hplaced hna
    · rcases List.mem_cons.mp hb with rfl | hb
      · exact absurd hplaced hnb
      · exact h.ordered a ha b hb hna hnb

/-- A new handler goes on the mark, and the others above it. -/
theorem push {p mid q : Program} {m k n : Mark} {placed names : List String} {name : String}
    (hraise : Raising p m [.node name []] mid) (hfound : ∃ f, p.find? name = some f)
    (hnew : name ∉ placed) (hwater : highWater mid m (.node name []) = .ok k)
    (h : Topping mid k (placed ++ [name]) names q n) :
    Topping p m placed (name :: names) q n := by
  obtain ⟨f, hf⟩ := hfound
  obtain ⟨g, hg, _⟩ := hraise.same name f hf
  have hkeep : q.find? name = some g :=
    (h.others name (.inl (List.mem_append_right _ List.mem_cons_self))).trans hg
  have hroot : ∀ file, m.at file ≤ (g.window file).base := fun file =>
    hraise.reaches _ List.mem_cons_self name m .root g hg file
  have hmark : ∀ file, m.at file ≤ k.at file := fun file => (highWater_eq_ok hwater file).1
  have hend : ∀ file, (g.window file).base + (g.window file).count ≤ k.at file := by
    intro file
    refine (highWater_eq_ok hwater file).2 name ?_ g hg
    rw [CallTree.discovery, CallTree.discoverFrom, if_neg List.not_mem_nil]
    exact Calls.mem_discoverFrom_of_known List.mem_cons_self
  have hrest : ∀ other ∈ name :: names, other ∉ placed → other ≠ name →
      other ∈ names ∧ other ∉ placed ++ [name] := by
    intro other hother hout hne
    refine ⟨(List.mem_cons.mp hother).resolve_left hne, fun hin => ?_⟩
    rcases List.mem_append.mp hin with hin | hin
    · exact hout hin
    · exact hne (List.mem_singleton.mp hin)
  have habove : ∀ other ∈ name :: names, other ∉ placed → other ≠ name → ∃ g', q.find? other =
      some g' ∧ ∀ file, k.at file ≤ (g'.window file).base ∧
        (g'.window file).base + (g'.window file).count ≤ n.at file := by
    intro other hother hout hne
    obtain ⟨hmem, hfresh⟩ := hrest other hother hout hne
    exact h.between other hmem hfresh
  refine ⟨?_, ?_, ?_, ?_, ?_⟩
  · exact fun file => Nat.le_trans (hmark file) (h.le file)
  · intro other hother
    have hne : other ≠ name := by
      rintro rfl
      rcases hother with hin | hout
      · exact hnew hin
      · exact hout List.mem_cons_self
    rw [← hraise.find?_of_ne hne]
    rcases hother with hin | hout
    · exact h.others other (.inl (List.mem_append_left _ hin))
    · exact h.others other (.inr (mt (List.mem_cons_of_mem _) hout))
  · intro other f0 hf0
    obtain ⟨g0, hg0, hsame0⟩ := hraise.same other f0 hf0
    obtain ⟨k0, hk0, hsame1⟩ := h.same other g0 hg0
    exact ⟨k0, hk0, hsame0.trans hsame1⟩
  · intro other hother hout
    by_cases hne : other = name
    · rw [hne]
      exact ⟨g, hkeep, fun file => ⟨hroot file, Nat.le_trans (hend file) (h.le file)⟩⟩
    · obtain ⟨g', hg', hb⟩ := habove other hother hout hne
      exact ⟨g', hg', fun file => ⟨Nat.le_trans (hmark file) (hb file).1, (hb file).2⟩⟩
  · intro a ha b hb hna hnb hne
    by_cases han : a = name
    · rw [han] at hne ⊢
      obtain ⟨g', hg', hle⟩ := habove b hb hnb (Ne.symm hne)
      exact ⟨g, g', hkeep, hg', fun file => .inl (Nat.le_trans (hend file) (hle file).1)⟩
    · by_cases hbn : b = name
      · rw [hbn]
        obtain ⟨g', hg', hle⟩ := habove a ha hna han
        exact ⟨g', g, hg', hkeep, fun file => .inr (Nat.le_trans (hend file) (hle file).1)⟩
      · obtain ⟨hmem, hfresh⟩ := hrest a ha hna han
        obtain ⟨hmem', hfresh'⟩ := hrest b hb hnb hbn
        exact h.ordered a hmem b hmem' hfresh hfresh' hne

end Topping

/-- Handlers that were stacked were put above the mark, one above the other. -/
theorem topping_of_stackHandlers :
    ∀ {handlers : List (Nat × CallTree)} {placed : List String} {p q : Program} {m n : Mark},
      (∀ h ∈ handlers, h.2 = .node h.2.name []) →
      stackHandlers p m placed handlers = .ok (q, n) →
      Topping p m placed (handlers.map (·.2.name)) q n
  | [], placed, p, q, m, n, _, h => by
    cases h
    exact ⟨fun _ => Nat.le_refl _, fun _ _ => rfl, fun _ f hf => ⟨f, hf, _, _, rfl⟩, by simp, by simp⟩
  | (level, tree) :: rest, placed, p, q, m, n, halone, h => by
    have hrest : ∀ h ∈ rest, h.2 = .node h.2.name [] := fun h hh =>
      halone h (List.mem_cons_of_mem _ hh)
    rw [stackHandlers] at h
    split at h
    · rename_i hplaced
      exact .skip hplaced (topping_of_stackHandlers hrest h)
    · rename_i hnew
      have htree : tree = .node tree.name [] := halone _ List.mem_cons_self
      obtain ⟨mid, hmid, h⟩ := bind_eq_ok.mp h
      obtain ⟨k, hk, h⟩ := bind_eq_ok.mp h
      have hfound : ∃ f, p.find? tree.name = some f := by
        rw [htree, stack] at hmid
        cases hf : p.find? tree.name with
        | some f => exact ⟨f, rfl⟩
        | none =>
            rw [hf] at hmid
            cases hmid
      refine .push (htree ▸ raising_of_stack hmid) hfound hnew (htree ▸ hk) ?_
      exact topping_of_stackHandlers hrest h

end Storage

end Stackless
