import Mathlib.Data.List.Induction
import Stackless.Proofs.SlotLives

/-!
# No slot is shared by lives that overlap

A pool is asked for slots again and again: a **request** pins one, or claims one for a **span**,
from the start of a value to its last use.  Spans may come in any order.  What a pool knows of its
past is one life for each slot that is not pinned, and that is enough, because

* `Tracks.held` — the life of a slot ends no earlier than any span for which the slot was claimed;
* `Tracks.unpinned` — a slot that was pinned has no life;
* `Tracks.slot_lt_iff` — the slots handed out are those below the count.

One request keeps all of this (`Tracks.serve`), and gets a slot that an earlier request may pass
on to it (`Tracks.passesOn`).  A run of requests follows by induction from its end.
-/

namespace Stackless.Storage

/-- From the index at which a value is computed to that of its last use. -/
structure Span where
  start : Nat
  last : Nat
  deriving DecidableEq

/-- What a pool is asked for: a slot for good, or one for a span. -/
inductive Request where
  | pin
  | claim (span : Span)
  deriving DecidableEq

/-- A request under which a value does not end before it starts. -/
def Request.Proper : Request → Prop
  | .pin => True
  | .claim span => span.start ≤ span.last

instance : DecidablePred Request.Proper
  | .pin => isTrue trivial
  | .claim span => inferInstanceAs (Decidable (span.start ≤ span.last))

/-- Requests are proper if what they claim slots for is. -/
theorem Request.forall_proper_iff {requests : List Request} :
    (∀ request ∈ requests, request.Proper) ↔
      ∀ span, .claim span ∈ requests → span.start ≤ span.last := by
  constructor
  · exact fun h span hmem => h (.claim span) hmem
  · rintro h (_ | span) hmem
    · exact trivial
    · exact h span hmem

/-- A slot of the earlier request may be handed out for the later one: both are claims, and the
earlier one is over. -/
def Reuse.PassesOn (reuse : Reuse) : Request → Request → Prop
  | .claim earlier, .claim later => reuse.expired earlier.last later.start = true
  | _, _ => False

/-- What is over stays over. -/
theorem Reuse.expired_mono {reuse : Reuse} {expiry expiry' start : Nat}
    (h : reuse.expired expiry start = true) (hle : expiry' ≤ expiry) :
    reuse.expired expiry' start = true := by
  cases reuse with
  | strict =>
      have hlt : expiry < start := of_decide_eq_true h
      exact decide_eq_true (Nat.lt_of_le_of_lt hle hlt)
  | inclusive =>
      have hle' : expiry ≤ start := of_decide_eq_true h
      exact decide_eq_true (Nat.le_trans hle hle')

/-- What is over when something starts ends no later than that. -/
theorem Reuse.le_of_expired {reuse : Reuse} {expiry start : Nat}
    (h : reuse.expired expiry start = true) : expiry ≤ start := by
  cases reuse with
  | strict => exact Nat.le_of_lt (of_decide_eq_true h)
  | inclusive => exact of_decide_eq_true h

namespace SlotPool

/-- A pool that has handed out nothing. -/
def fresh (reuse : Reuse) : SlotPool := { reuse }

/-- Serves a request: the slot, and the pool afterwards. A pinned slot is new and kept for good, and
a claim may get one that was used before. -/
def serve (p : SlotPool) : Request → Nat × SlotPool
  | .pin => p.pin
  | .claim span => p.claim span.start span.last

/-- Serves requests one after another: their slots, and the pool afterwards. -/
def serveAll (p : SlotPool) : List Request → List Nat × SlotPool
  | [] => ([], p)
  | request :: rest =>
    let (slot, p) := p.serve request
    let (slots, p) := p.serveAll rest
    (slot :: slots, p)

/-- The slots that a fresh pool hands out for requests. -/
def handedOut (reuse : Reuse) (requests : List Request) : List Nat :=
  ((fresh reuse).serveAll requests).1

/-- A fresh pool after requests. -/
def after (reuse : Reuse) (requests : List Request) : SlotPool :=
  ((fresh reuse).serveAll requests).2

section Runs

variable {reuse : Reuse}

/-- The last of the requests is served behind the others. -/
theorem serveAll_concat (p : SlotPool) (requests : List Request) (request : Request) :
    p.serveAll (requests ++ [request]) =
      ((p.serveAll requests).1 ++ [((p.serveAll requests).2.serve request).1],
        ((p.serveAll requests).2.serve request).2) := by
  induction requests generalizing p with
  | nil => rfl
  | cons first rest ih => simp only [List.cons_append, serveAll, ih]

/-- The last request gets what the pool serves after the others. -/
theorem handedOut_concat (requests : List Request) (request : Request) :
    handedOut reuse (requests ++ [request]) =
      handedOut reuse requests ++ [((after reuse requests).serve request).1] := by
  rw [handedOut, serveAll_concat]
  rfl

/-- The last request leaves the pool that it was served from. -/
theorem after_concat (requests : List Request) (request : Request) :
    after reuse (requests ++ [request]) = ((after reuse requests).serve request).2 := by
  rw [after, serveAll_concat]
  rfl

/-- Each request gets one slot. -/
theorem length_handedOut (requests : List Request) :
    (handedOut reuse requests).length = requests.length := by
  induction requests using List.reverseRecOn with
  | nil => rfl
  | append_singleton requests request ih =>
      rw [handedOut_concat, List.length_append, List.length_append, ih]
      rfl

/-- The first requests get the same slots whatever comes behind them. -/
theorem take_handedOut (requests : List Request) (n : Nat) :
    (handedOut reuse requests).take n = handedOut reuse (requests.take n) := by
  induction requests using List.reverseRecOn with
  | nil => simp [handedOut, serveAll]
  | append_singleton requests request ih =>
      rcases Nat.lt_or_ge requests.length n with hlt | hle
      · have hall : requests.length + 1 ≤ n := hlt
        rw [List.take_of_length_le (by simpa [length_handedOut] using hall),
          List.take_of_length_le (by simpa using hall)]
      · rw [handedOut_concat, List.take_append_of_le_length (by rwa [length_handedOut]),
          List.take_append_of_le_length hle, ih]

end Runs

/-- What the lives of a pool say about the requests that it has served, each with its slot. -/
structure Tracks (reuse : Reuse) (served : List (Request × Nat)) (p : SlotPool) : Prop where
  reuse_eq : p.reuse = reuse
  distinct : p.lives.Pairwise fun a b => a.slot ≠ b.slot
  /-- The slots handed out are those below the count. -/
  slot_lt_iff : ∀ slot, slot < p.count ↔ ∃ request, (request, slot) ∈ served
  /-- Every life belongs to a claim. -/
  claimed : ∀ life ∈ p.lives, ∃ span, (.claim span, life.slot) ∈ served
  /-- Every claim is followed by a life of its slot, which ends no earlier. -/
  held : ∀ span slot, (.claim span, slot) ∈ served →
    ∃ life ∈ p.lives, life.slot = slot ∧ span.last ≤ life.expiry
  unpinned : ∀ slot, (.pin, slot) ∈ served → ∀ life ∈ p.lives, life.slot ≠ slot

namespace Tracks

variable {reuse : Reuse} {served : List (Request × Nat)} {p : SlotPool} {request : Request}

/-- A pool that has handed out nothing knows of nothing. -/
theorem nil (reuse : Reuse) : Tracks reuse [] (fresh reuse) where
  reuse_eq := rfl
  distinct := List.Pairwise.nil
  slot_lt_iff := by simp [fresh]
  claimed := by simp [fresh]
  held := by simp
  unpinned := by simp

theorem slot_lt (h : Tracks reuse served p) {life : Life} (hlife : life ∈ p.lives) :
    life.slot < p.count := by
  obtain ⟨span, hspan⟩ := h.claimed life hlife
  exact (h.slot_lt_iff life.slot).mpr ⟨_, hspan⟩

/-- **A slot comes again only behind a claim that is over.**  Pinned slots never come again, and for
a claim the policy of the pool says when it is over. -/
theorem passesOn (h : Tracks reuse served p) {earlier : Request} {slot : Nat}
    (hearlier : (earlier, slot) ∈ served) (hslot : (p.serve request).1 = slot) :
    reuse.PassesOn earlier request := by
  have hlt : slot < p.count := (h.slot_lt_iff slot).mpr ⟨earlier, hearlier⟩
  cases request with
  | pin => exact absurd hslot (Nat.ne_of_gt hlt)
  | claim span =>
      rcases p.claim_cases span.start span.last with ⟨first, rest, hlives, hover, hclaim⟩ |
        ⟨_, hclaim⟩
      · rw [serve, hclaim] at hslot
        have hfirst : first ∈ p.lives := hlives ▸ List.mem_cons_self
        cases earlier with
        | pin => exact absurd hslot (h.unpinned slot hearlier first hfirst)
        | claim span' =>
            obtain ⟨life, hlife, hsame, hle⟩ := h.held span' slot hearlier
            have hlife : life = first := by
              have hdistinct := h.distinct
              rw [hlives] at hlife hdistinct
              rcases List.mem_cons.mp hlife with heq | hrest
              · exact heq
              · exact absurd (hslot.trans hsame.symm)
                  ((List.pairwise_cons.mp hdistinct).1 life hrest)
            rw [← h.reuse_eq]
            exact Reuse.expired_mono hover (hlife ▸ hle)
      · rw [serve, hclaim] at hslot
        exact absurd hslot (Nat.ne_of_gt hlt)

/-- Pinning a slot. -/
theorem pin (h : Tracks reuse served p) :
    Tracks reuse (served ++ [(.pin, p.count)]) p.pin.2 where
  reuse_eq := h.reuse_eq
  distinct := h.distinct
  slot_lt_iff := fun slot => by
    have hold := h.slot_lt_iff slot
    simp only [SlotPool.pin, List.mem_append, List.mem_singleton, Prod.mk.injEq, exists_or,
      exists_eq_left, ← hold]
    omega
  claimed := fun life hlife => by
    obtain ⟨span, hspan⟩ := h.claimed life hlife
    exact ⟨span, List.mem_append_left _ hspan⟩
  held := fun span slot hmem => by
    rcases List.mem_append.mp hmem with hmem | hmem
    · exact h.held span slot hmem
    · cases List.mem_singleton.mp hmem
  unpinned := fun slot hmem life hlife => by
    rcases List.mem_append.mp hmem with hmem | hmem
    · exact h.unpinned slot hmem life hlife
    · cases List.mem_singleton.mp hmem
      exact Nat.ne_of_lt (h.slot_lt hlife)

/-- Using the slot of the first life again. -/
theorem reused (h : Tracks reuse served p) {span : Span} (hspan : span.start ≤ span.last)
    {first : Life} {rest : List Life} (hlives : p.lives = first :: rest)
    (hover : p.reuse.expired first.expiry span.start = true) :
    Tracks reuse (served ++ [(.claim span, first.slot)])
      { p with lives := enqueue ⟨span.last, first.slot⟩ rest } := by
  have hfirst : first ∈ p.lives := hlives ▸ List.mem_cons_self
  have hrest : ∀ life ∈ rest, life ∈ p.lives := fun life hlife =>
    hlives ▸ List.mem_cons_of_mem _ hlife
  have hdistinct := h.distinct
  rw [hlives] at hdistinct
  obtain ⟨hhead, htail⟩ := List.pairwise_cons.mp hdistinct
  refine ⟨h.reuse_eq, pairwise_enqueue htail fun life hlife => (hhead life hlife).symm, ?_, ?_, ?_,
    ?_⟩
  · intro slot
    show slot < p.count ↔ _
    rw [h.slot_lt_iff slot]
    constructor
    · rintro ⟨request, hmem⟩
      exact ⟨request, List.mem_append_left _ hmem⟩
    · rintro ⟨request, hmem⟩
      rcases List.mem_append.mp hmem with hmem | hmem
      · exact ⟨request, hmem⟩
      · cases List.mem_singleton.mp hmem
        exact (h.slot_lt_iff first.slot).mp (h.slot_lt hfirst)
  · intro life hlife
    rcases mem_enqueue.mp hlife with rfl | hlife
    · exact ⟨span, List.mem_append_right _ (List.mem_singleton_self _)⟩
    · obtain ⟨span', hspan'⟩ := h.claimed life (hrest life hlife)
      exact ⟨span', List.mem_append_left _ hspan'⟩
  · intro span' slot hmem
    rcases List.mem_append.mp hmem with hmem | hmem
    · obtain ⟨life, hlife, rfl, hle⟩ := h.held span' slot hmem
      rw [hlives] at hlife
      rcases List.mem_cons.mp hlife with rfl | hlife
      · -- the life is over before the span starts, and the new one ends behind that
        have hstart := Reuse.le_of_expired hover
        exact ⟨_, mem_enqueue.mpr (.inl rfl), rfl, by simp only; omega⟩
      · exact ⟨life, mem_enqueue.mpr (.inr hlife), rfl, hle⟩
    · cases List.mem_singleton.mp hmem
      exact ⟨_, mem_enqueue.mpr (.inl rfl), rfl, Nat.le_refl _⟩
  · intro slot hmem life hlife
    rcases List.mem_append.mp hmem with hmem | hmem
    · rcases mem_enqueue.mp hlife with rfl | hlife
      · exact h.unpinned slot hmem first hfirst
      · exact h.unpinned slot hmem life (hrest life hlife)
    · cases List.mem_singleton.mp hmem

/-- Taking a new slot for a claim. -/
theorem opened (h : Tracks reuse served p) (span : Span) :
    Tracks reuse (served ++ [(.claim span, p.count)])
      { p with count := p.count + 1, lives := enqueue ⟨span.last, p.count⟩ p.lives } := by
  have hnew : ∀ life ∈ p.lives, life.slot ≠ p.count := fun life hlife =>
    Nat.ne_of_lt (h.slot_lt hlife)
  refine ⟨h.reuse_eq, pairwise_enqueue h.distinct hnew, ?_, ?_, ?_, ?_⟩
  · intro slot
    have hold := h.slot_lt_iff slot
    simp only [List.mem_append, List.mem_singleton, Prod.mk.injEq, exists_or, exists_eq_left,
      ← hold]
    omega
  · intro life hlife
    rcases mem_enqueue.mp hlife with rfl | hlife
    · exact ⟨span, List.mem_append_right _ (List.mem_singleton_self _)⟩
    · obtain ⟨span', hspan'⟩ := h.claimed life hlife
      exact ⟨span', List.mem_append_left _ hspan'⟩
  · intro span' slot hmem
    rcases List.mem_append.mp hmem with hmem | hmem
    · obtain ⟨life, hlife, hslot⟩ := h.held span' slot hmem
      exact ⟨life, mem_enqueue.mpr (.inr hlife), hslot⟩
    · cases List.mem_singleton.mp hmem
      exact ⟨_, mem_enqueue.mpr (.inl rfl), rfl, Nat.le_refl _⟩
  · intro slot hmem life hlife
    rcases List.mem_append.mp hmem with hmem | hmem
    · rcases mem_enqueue.mp hlife with rfl | hlife
      · exact Nat.ne_of_gt ((h.slot_lt_iff slot).mpr ⟨_, hmem⟩)
      · exact h.unpinned slot hmem life hlife
    · cases List.mem_singleton.mp hmem

/-- **One request more** is tracked as those before it, which is the step of the induction over all
requests that a pool serves. -/
theorem serve (h : Tracks reuse served p) (hproper : request.Proper) :
    Tracks reuse (served ++ [(request, (p.serve request).1)]) (p.serve request).2 := by
  cases request with
  | pin => exact h.pin
  | claim span =>
      rcases p.claim_cases span.start span.last with ⟨first, rest, hlives, hover, hclaim⟩ |
        ⟨_, hclaim⟩
      · rw [SlotPool.serve, hclaim]
        exact h.reused hproper hlives hover
      · rw [SlotPool.serve, hclaim]
        exact h.opened span

end Tracks

section Runs

variable {reuse : Reuse} {requests : List Request}

/-- The requests with their slots, and one request more. -/
theorem zip_handedOut_concat (requests : List Request) (request : Request) :
    (requests ++ [request]).zip (handedOut reuse (requests ++ [request])) =
      requests.zip (handedOut reuse requests) ++
        [(request, ((after reuse requests).serve request).1)] := by
  rw [handedOut_concat, List.zip_append (length_handedOut requests).symm]
  rfl

/-- **A pool keeps track of all that it has served**, in whatever order the spans came. -/
theorem tracks_after (h : ∀ request ∈ requests, request.Proper) :
    Tracks reuse (requests.zip (handedOut reuse requests)) (after reuse requests) := by
  induction requests using List.reverseRecOn with
  | nil => exact .nil reuse
  | append_singleton requests request ih =>
      obtain ⟨hfront, hlast⟩ := List.forall_mem_append.mp h
      rw [zip_handedOut_concat, after_concat]
      exact (ih hfront).serve (hlast request (List.mem_singleton_self request))

/-- Of two requests with one slot, the earlier passes it on to the later. -/
theorem pairwise_passesOn (h : ∀ request ∈ requests, request.Proper) :
    (requests.zip (handedOut reuse requests)).Pairwise fun a b =>
      a.2 = b.2 → reuse.PassesOn a.1 b.1 := by
  induction requests using List.reverseRecOn with
  | nil => exact List.Pairwise.nil
  | append_singleton requests request ih =>
      obtain ⟨hfront, _⟩ := List.forall_mem_append.mp h
      rw [zip_handedOut_concat]
      refine List.pairwise_append.mpr ⟨ih hfront, List.pairwise_singleton _ _, ?_⟩
      rintro ⟨earlier, slot⟩ hearlier later hlater hslot
      cases List.mem_singleton.mp hlater
      exact (tracks_after hfront).passesOn hearlier hslot.symm

/-- The same, for two requests by their numbers. -/
theorem passesOn_of_slot_eq (h : ∀ request ∈ requests, request.Proper) {i j slot : Nat}
    {earlier later : Request} (hij : i < j) (hearlier : requests[i]? = some earlier)
    (hlater : requests[j]? = some later) (hi : (handedOut reuse requests)[i]? = some slot)
    (hj : (handedOut reuse requests)[j]? = some slot) : reuse.PassesOn earlier later := by
  have hzip : ∀ {n : Nat} {request : Request}, requests[n]? = some request →
      (handedOut reuse requests)[n]? = some slot →
      (requests.zip (handedOut reuse requests))[n]? = some (request, slot) := fun hn hslot =>
    List.getElem?_zip_eq_some.mpr ⟨hn, hslot⟩
  obtain ⟨hilt, hget⟩ := List.getElem?_eq_some_iff.mp (hzip hearlier hi)
  obtain ⟨hjlt, hget'⟩ := List.getElem?_eq_some_iff.mp (hzip hlater hj)
  have hpair := List.pairwise_iff_getElem.mp (pairwise_passesOn h) i j hilt hjlt hij
  rw [hget, hget'] at hpair
  exact hpair rfl

/-- The slots handed out are those below the count. -/
theorem mem_handedOut_iff (h : ∀ request ∈ requests, request.Proper) {slot : Nat} :
    slot ∈ handedOut reuse requests ↔ slot < (after reuse requests).count := by
  rw [(tracks_after h).slot_lt_iff slot]
  constructor
  · intro hmem
    obtain ⟨n, hlt, hget⟩ := List.mem_iff_getElem.mp hmem
    have hlt' : n < requests.length := by rwa [length_handedOut] at hlt
    exact ⟨requests[n], List.mem_iff_getElem?.mpr ⟨n, List.getElem?_zip_eq_some.mpr
      ⟨List.getElem?_eq_getElem hlt', by rw [List.getElem?_eq_getElem hlt, hget]⟩⟩⟩
  · rintro ⟨request, hmem⟩
    exact (List.of_mem_zip hmem).2

end Runs

end SlotPool

end Stackless.Storage

namespace Stackless

open Storage (Reuse Request Span SlotPool)

/-- **The slot pool never shares a slot between lives that overlap.**  Whatever is asked of a pool
that was empty, in whatever order the spans come, each request gets one slot.  If two claims get
the same slot, the earlier one is over when the later one starts; a pinned slot goes to no other
request; and after each request, the slots handed out so far are exactly those below the count.
-/
theorem slot_lives_apart (reuse : Reuse) (requests : List Request)
    (h : ∀ span, .claim span ∈ requests → span.start ≤ span.last) :
    (SlotPool.handedOut reuse requests).length = requests.length ∧
    (∀ (i j slot : Nat) (earlier later : Span), i < j →
      requests[i]? = some (.claim earlier) → requests[j]? = some (.claim later) →
      (SlotPool.handedOut reuse requests)[i]? = some slot →
      (SlotPool.handedOut reuse requests)[j]? = some slot →
      match reuse with
      | .strict => earlier.last < later.start
      | .inclusive => earlier.last ≤ later.start) ∧
    (∀ i j slot : Nat, requests[i]? = some .pin →
      (SlotPool.handedOut reuse requests)[i]? = some slot →
      (SlotPool.handedOut reuse requests)[j]? = some slot → i = j) ∧
    ∀ n : Nat,
      (∀ slot, (SlotPool.handedOut reuse requests)[n]? = some slot →
        slot < (SlotPool.after reuse (requests.take (n + 1))).count) ∧
      ∀ slot, slot ∈ (SlotPool.handedOut reuse requests).take n ↔
        slot < (SlotPool.after reuse (requests.take n)).count := by
  have hproper := Request.forall_proper_iff.mpr h
  have hslots : ∀ n slot, slot ∈ (SlotPool.handedOut reuse requests).take n ↔
      slot < (SlotPool.after reuse (requests.take n)).count := fun n slot => by
    rw [SlotPool.take_handedOut]
    exact SlotPool.mem_handedOut_iff fun request hmem =>
      hproper request (List.mem_of_mem_take hmem)
  refine ⟨SlotPool.length_handedOut requests, ?_, ?_, fun n => ⟨fun slot hslot => ?_, hslots n⟩⟩
  · intro i j slot earlier later hij hearlier hlater hi hj
    have hover : reuse.expired earlier.last later.start = true :=
      SlotPool.passesOn_of_slot_eq hproper hij hearlier hlater hi hj
    cases reuse with
    | strict => exact of_decide_eq_true hover
    | inclusive => exact of_decide_eq_true hover
  · intro i j slot hpin hi hj
    have hlength : (SlotPool.handedOut reuse requests).length = requests.length :=
      SlotPool.length_handedOut requests
    have hlt : j < requests.length := by
      rw [← hlength]
      exact (List.getElem?_eq_some_iff.mp hj).1
    have hother := List.getElem?_eq_getElem hlt
    rcases Nat.lt_trichotomy i j with hij | hij | hji
    · exact (SlotPool.passesOn_of_slot_eq hproper hij hpin hother hi hj).elim
    · exact hij
    · have hpasses := SlotPool.passesOn_of_slot_eq hproper hji hother hpin hj hi
      cases hrequest : requests[j] with
      | pin => rw [hrequest] at hpasses; exact hpasses.elim
      | claim span => rw [hrequest] at hpasses; exact hpasses.elim
  · refine (hslots (n + 1) slot).mp (List.mem_iff_getElem?.mpr ⟨n, ?_⟩)
    rw [List.getElem?_take_of_lt (Nat.lt_succ_self n)]
    exact hslot

/-- Requests whose spans are out of order, with a pinned slot between them. -/
def outOfOrder : List Request :=
  [.claim ⟨5, 9⟩, .pin, .claim ⟨2, 4⟩, .claim ⟨6, 7⟩, .claim ⟨20, 21⟩]

/-- In `outOfOrder` one slot is used three times: the first of these claims is over when the
second starts, and so on; and three slots are handed out in all. -/
theorem slot_lives_apart_outOfOrder :
    (∀ span, .claim span ∈ outOfOrder → span.start ≤ span.last) ∧
      SlotPool.handedOut .strict outOfOrder = [0, 1, 2, 2, 2] ∧
      (⟨2, 4⟩ : Span).last < (⟨6, 7⟩ : Span).start ∧
      ∀ slot, slot ∈ (SlotPool.handedOut .strict outOfOrder).take 5 ↔ slot < 3 := by
  have hspans : ∀ span, .claim span ∈ outOfOrder → span.start ≤ span.last :=
    Request.forall_proper_iff.mp (by decide)
  have hslots : SlotPool.handedOut .strict outOfOrder = [0, 1, 2, 2, 2] := by decide
  obtain ⟨_, hapart, _, hcount⟩ := slot_lives_apart .strict outOfOrder hspans
  refine ⟨hspans, hslots, ?_, (hcount 5).2⟩
  exact hapart 2 3 2 ⟨2, 4⟩ ⟨6, 7⟩ (by decide) rfl rfl (by rw [hslots]; rfl) (by rw [hslots]; rfl)

end Stackless
