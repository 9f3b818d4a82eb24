import Mathlib.Data.Finset.Lattice.Fold
import Mathlib.Data.Finset.Card
import Mathlib.Order.Lattice.Nat
import Stackless.Proofs.SlotSharing

/-!
# A pool takes no more slots than it must

When claims come in the order of their starts, a pool has exactly as many slots for them as there
are claims that hold a slot at one time.  Only the life that ends first is looked at, and that is
enough: the lives are in the order of their ends, so if the first is not over, none is.

* `Occupied.held` — the lives that are not over are as many as the claims that are not over, from
  the last start on;
* `Occupied.length_lives` — and so there are as many lives as the **peak** of the claims;
* `Assigns.peak_le` — whoever gives slots to the claims, if no slot is shared, needs that many,
  because the claims that hold a slot when some claim starts need different ones.
-/

namespace Stackless.Storage

/-- The span that a request claims a slot for. -/
def Request.span? : Request → Option Span
  | .pin => none
  | .claim span => some span

/-- The spans that are claimed, in order. -/
def spansOf (requests : List Request) : List Span :=
  requests.filterMap Request.span?

/-- How many slots are pinned. -/
def pinsOf (requests : List Request) : Nat :=
  requests.count .pin

/-- Whether a slot whose value is used last at `last` is not free yet at a time. -/
def Reuse.holds (reuse : Reuse) (time last : Nat) : Bool :=
  !reuse.expired last time

/-- The slots that are needed when a claim starts: one for it, and one for each earlier claim that
is not over. -/
def demand (reuse : Reuse) (spans : List Span) (i : Nat) : Nat :=
  match spans[i]? with
  | none => 0
  | some span => (spans.take i).countP (fun earlier => reuse.holds span.start earlier.last) + 1

/-- The most slots that are needed when some claim starts. -/
def peak (reuse : Reuse) (spans : List Span) : Nat :=
  (Finset.range spans.length).sup (demand reuse spans)

/-- A slot for each span, such that no slot is given again before it is free. -/
structure Assigns (reuse : Reuse) (spans : List Span) (given : List (Span × Nat)) : Prop where
  spans_eq : given.map Prod.fst = spans
  apart : given.Pairwise fun a b => a.2 = b.2 → reuse.expired a.1.last b.1.start = true

/-- How many slots are given. -/
def slotsUsed (given : List (Span × Nat)) : Nat :=
  (given.map Prod.snd).toFinset.card

/-- The spans of the claims with the slots that a fresh pool hands out for them. -/
def claimsServed (reuse : Reuse) (requests : List Request) : List (Span × Nat) :=
  (requests.zip (SlotPool.handedOut reuse requests)).filterMap fun served =>
    served.1.span?.map fun span => (span, served.2)

section Peaks

variable {reuse : Reuse}

theorem Reuse.holds_of_le {time earlier last : Nat} (h : reuse.holds time last = true)
    (hle : earlier ≤ time) : reuse.holds earlier last = true := by
  have hnot : reuse.expired last time = false := by simpa [Reuse.holds] using h
  rw [Reuse.holds, SlotPool.not_expired_of_le hnot hle]
  rfl

/-- What was over is over still. -/
theorem Reuse.not_holds_of_le {time later last : Nat} (h : reuse.expired last time = true)
    (hle : time ≤ later) : reuse.holds later last = false := by
  cases hholds : reuse.holds later last with
  | false => rfl
  | true =>
      have hheld := Reuse.holds_of_le hholds hle
      rw [Reuse.holds, h] at hheld
      cases hheld

/-- **One claim more** raises the peak to what is needed when it starts, if that is more. -/
theorem peak_concat (spans : List Span) (span : Span) :
    peak reuse (spans ++ [span]) =
      max (spans.countP (fun earlier => reuse.holds span.start earlier.last) + 1)
        (peak reuse spans) := by
  have hlast : demand reuse (spans ++ [span]) spans.length =
      spans.countP (fun earlier => reuse.holds span.start earlier.last) + 1 := by
    simp [demand]
  have hfront : ∀ i ∈ Finset.range spans.length,
      demand reuse (spans ++ [span]) i = demand reuse spans i := fun i hi => by
    have hlt := Finset.mem_range.mp hi
    simp only [demand, List.getElem?_append_left hlt,
      List.take_append_of_le_length (Nat.le_of_lt hlt)]
  rw [peak, List.length_append, List.length_singleton, Finset.range_add_one, Finset.sup_insert,
    hlast, Finset.sup_congr rfl hfront]
  rfl

/-- **Claims that hold a slot at one time need different slots.**  So the peak is a lower bound for
every assignment, however it was found. -/
theorem Assigns.peak_le {spans : List Span} {given : List (Span × Nat)}
    (h : Assigns reuse spans given) (hstarts : spans.Pairwise fun a b => a.start ≤ b.start) :
    peak reuse spans ≤ slotsUsed given := by
  obtain ⟨rfl, hapart⟩ := h
  induction given using List.reverseRecOn with
  | nil => exact Nat.zero_le _
  | append_singleton given last ih =>
      obtain ⟨hfront, _, hlast⟩ := List.pairwise_append.mp hapart
      rw [List.map_append] at hstarts
      obtain ⟨hsorted, _, hbehind⟩ := List.pairwise_append.mp hstarts
      have hlast : ∀ a ∈ given, a.2 = last.2 → reuse.expired a.1.last last.1.start = true :=
        fun a ha => hlast a ha last (List.mem_singleton_self last)
      have hbefore : ∀ a ∈ given, a.1.start ≤ last.1.start := fun a ha =>
        hbehind a.1 (List.mem_map_of_mem ha) last.1 (List.mem_singleton_self _)
      let holding := given.filter fun a => reuse.holds last.1.start a.1.last
      have hholds : ∀ a ∈ holding, a ∈ given ∧ reuse.holds last.1.start a.1.last = true :=
        fun a ha => List.mem_filter.mp ha
      have hnodup : (last.2 :: holding.map Prod.snd).Nodup := by
        refine List.nodup_cons.mpr ⟨fun hmem => ?_, ?_⟩
        · obtain ⟨a, ha, heq⟩ := List.mem_map.mp hmem
          have hheld := (hholds a ha).2
          rw [Reuse.holds, hlast a (hholds a ha).1 heq] at hheld
          cases hheld
        · refine List.pairwise_map.mpr ((hfront.filter _).imp_of_mem ?_)
          intro a b ha hb hshare heq
          have hheld := Reuse.holds_of_le (hholds a ha).2 (hbefore b (hholds b hb).1)
          rw [Reuse.holds, hshare heq] at hheld
          cases hheld
      have hsubset : (last.2 :: holding.map Prod.snd).toFinset ⊆
          ((given ++ [last]).map Prod.snd).toFinset := by
        intro slot hslot
        rw [List.mem_toFinset, List.map_append, List.mem_append]
        rcases List.mem_cons.mp (List.mem_toFinset.mp hslot) with rfl | hslot
        · exact .inr (List.mem_singleton_self _)
        · obtain ⟨a, ha, rfl⟩ := List.mem_map.mp hslot
          exact .inl (List.mem_map_of_mem (hholds a ha).1)
      have hnow := Finset.card_le_card hsubset
      rw [List.toFinset_card_of_nodup hnodup, List.length_cons, List.length_map,
        ← List.countP_eq_length_filter] at hnow
      have hmore : slotsUsed given ≤ slotsUsed (given ++ [last]) := by
        refine Finset.card_le_card fun slot hslot => ?_
        rw [List.map_append, List.mem_toFinset]
        exact List.mem_append_left _ (List.mem_toFinset.mp hslot)
      rw [List.map_append, List.map_singleton, peak_concat, List.countP_map]
      exact Nat.max_le.mpr ⟨hnow, Nat.le_trans (ih hfront hsorted) hmore⟩

end Peaks

section Requests

variable (requests : List Request) (span : Span)

theorem spansOf_concat_pin : spansOf (requests ++ [.pin]) = spansOf requests := by
  simp [spansOf, Request.span?]

theorem spansOf_concat_claim :
    spansOf (requests ++ [.claim span]) = spansOf requests ++ [span] := by
  simp [spansOf, Request.span?]

theorem pinsOf_concat_pin : pinsOf (requests ++ [.pin]) = pinsOf requests + 1 := by
  simp [pinsOf]

theorem pinsOf_concat_claim : pinsOf (requests ++ [.claim span]) = pinsOf requests := by
  simp [pinsOf]

end Requests

/-- Lives in the order of their ends stay so if one is put in. -/
theorem sorted_enqueue {life : Life} :
    ∀ {lives : List Life}, lives.Pairwise (fun a b => a.expiry ≤ b.expiry) →
      (enqueue life lives).Pairwise fun a b => a.expiry ≤ b.expiry
  | [], _ => List.pairwise_singleton _ _
  | first :: rest, h => by
    obtain ⟨hfirst, hrest⟩ := List.pairwise_cons.mp h
    rw [enqueue]
    split
    · rename_i hbefore
      have hle : life.expiry ≤ first.expiry := by
        simp only [Life.before, Bool.or_eq_true, Bool.and_eq_true, decide_eq_true_eq] at hbefore
        omega
      refine List.pairwise_cons.mpr ⟨fun other hother => ?_, h⟩
      rcases List.mem_cons.mp hother with rfl | hother
      · exact hle
      · exact Nat.le_trans hle (hfirst other hother)
    · rename_i hbehind
      have hle : first.expiry ≤ life.expiry := by
        simp only [Life.before, Bool.or_eq_true, Bool.and_eq_true, decide_eq_true_eq] at hbehind
        omega
      refine List.pairwise_cons.mpr ⟨fun other hother => ?_, sorted_enqueue hrest⟩
      rcases mem_enqueue.mp hother with rfl | hother
      · exact hle
      · exact hfirst other hother

namespace SlotPool

/-- What the lives of a pool say about the number of its slots, after requests whose spans came in
the order of their starts. -/
structure Occupied (reuse : Reuse) (requests : List Request) (p : SlotPool) : Prop where
  reuse_eq : p.reuse = reuse
  sorted : p.lives.Pairwise fun a b => a.expiry ≤ b.expiry
  count_eq : p.count = pinsOf requests + p.lives.length
  /-- From the last start on, as many lives as claims are not over. -/
  held : ∀ time, (∀ span ∈ spansOf requests, span.start ≤ time) →
    (spansOf requests).countP (fun span => reuse.holds time span.last) =
      p.lives.countP fun life => reuse.holds time life.expiry
  length_lives : p.lives.length = peak reuse (spansOf requests)

namespace Occupied

variable {reuse : Reuse} {requests : List Request} {p : SlotPool} {span : Span}

theorem nil (reuse : Reuse) : Occupied reuse [] (fresh reuse) where
  reuse_eq := rfl
  sorted := List.Pairwise.nil
  count_eq := rfl
  held := fun _ _ => rfl
  length_lives := rfl

/-- A pinned slot is one more slot. -/
theorem pin (h : Occupied reuse requests p) : Occupied reuse (requests ++ [.pin]) p.pin.2 where
  reuse_eq := h.reuse_eq
  sorted := h.sorted
  count_eq := by
    have hcount := h.count_eq
    rw [pinsOf_concat_pin]
    show p.count + 1 = pinsOf requests + 1 + p.lives.length
    omega
  held := by
    rw [spansOf_concat_pin]
    exact h.held
  length_lives := by
    rw [spansOf_concat_pin]
    exact h.length_lives

/-- A slot that is used again was not needed any more, and so no new one is. -/
theorem reused (h : Occupied reuse requests p)
    (hlatest : ∀ earlier ∈ spansOf requests, earlier.start ≤ span.start)
    {first : Life} {rest : List Life} (hlives : p.lives = first :: rest)
    (hover : p.reuse.expired first.expiry span.start = true) :
    Occupied reuse (requests ++ [.claim span])
      { p with lives := enqueue ⟨span.last, first.slot⟩ rest } := by
  rw [h.reuse_eq] at hover
  have hlength : p.lives.length = rest.length + 1 := by rw [hlives, List.length_cons]
  have hperm := perm_enqueue ⟨span.last, first.slot⟩ rest
  have hheld : ∀ time, span.start ≤ time →
      (spansOf requests).countP (fun earlier => reuse.holds time earlier.last) =
        rest.countP fun life => reuse.holds time life.expiry := by
    intro time htime
    rw [h.held time fun earlier hearlier => Nat.le_trans (hlatest earlier hearlier) htime, hlives]
    exact List.countP_cons_of_neg (by simp [Reuse.not_holds_of_le hover htime])
  have hsorted := h.sorted
  rw [hlives] at hsorted
  refine ⟨h.reuse_eq, sorted_enqueue (List.pairwise_cons.mp hsorted).2, ?_, ?_, ?_⟩
  · rw [pinsOf_concat_claim, hperm.length_eq, List.length_cons, ← hlength]
    exact h.count_eq
  · rw [spansOf_concat_claim]
    intro time htime
    have hspan := htime span (List.mem_append_right _ (List.mem_singleton_self span))
    rw [List.countP_append, hheld time hspan, hperm.countP_eq, List.countP_cons, List.countP_nil,
      List.countP_cons, Nat.zero_add]
  · have hfew : rest.countP (fun life => reuse.holds span.start life.expiry) ≤ rest.length :=
      List.countP_le_length
    rw [spansOf_concat_claim, peak_concat, hheld span.start (Nat.le_refl _), ← h.length_lives,
      hperm.length_eq, List.length_cons]
    omega

/-- A new slot is taken only if all others are needed. -/
theorem opened (h : Occupied reuse requests p)
    (hlatest : ∀ earlier ∈ spansOf requests, earlier.start ≤ span.start)
    (hfirst : ∀ first rest, p.lives = first :: rest →
      p.reuse.expired first.expiry span.start = false) :
    Occupied reuse (requests ++ [.claim span])
      { p with count := p.count + 1, lives := enqueue ⟨span.last, p.count⟩ p.lives } := by
  have hperm := perm_enqueue ⟨span.last, p.count⟩ p.lives
  have hall : ∀ life ∈ p.lives, reuse.holds span.start life.expiry = true := by
    cases hlives : p.lives with
    | nil => exact nofun
    | cons first rest =>
        have hsorted := h.sorted
        have hnot := hfirst first rest hlives
        rw [hlives] at hsorted
        rw [h.reuse_eq] at hnot
        intro life hlife
        cases hover : reuse.expired life.expiry span.start with
        | false =>
            rw [Reuse.holds, hover]
            rfl
        | true =>
            have hle : first.expiry ≤ life.expiry := by
              rcases List.mem_cons.mp hlife with rfl | hlife
              · exact Nat.le_refl _
              · exact (List.pairwise_cons.mp hsorted).1 life hlife
            rw [Reuse.expired_mono hover hle] at hnot
            cases hnot
  refine ⟨h.reuse_eq, sorted_enqueue h.sorted, ?_, ?_, ?_⟩
  · rw [pinsOf_concat_claim, hperm.length_eq, List.length_cons]
    show p.count + 1 = _
    rw [h.count_eq, Nat.add_assoc]
  · rw [spansOf_concat_claim]
    intro time htime
    have hfront : ∀ earlier ∈ spansOf requests, earlier.start ≤ time := fun earlier hearlier =>
      htime earlier (List.mem_append_left _ hearlier)
    rw [List.countP_append, h.held time hfront, hperm.countP_eq, List.countP_cons, List.countP_nil,
      List.countP_cons, Nat.zero_add]
  · rw [spansOf_concat_claim, peak_concat, h.held span.start hlatest,
      List.countP_eq_length.mpr hall, ← h.length_lives, hperm.length_eq, List.length_cons]
    omega

/-- **One request more**, whose span starts behind the others. -/
theorem serve (h : Occupied reuse requests p) {request : Request}
    (hlatest : ∀ span, request.span? = some span →
      ∀ earlier ∈ spansOf requests, earlier.start ≤ span.start) :
    Occupied reuse (requests ++ [request]) (p.serve request).2 := by
  cases request with
  | pin => exact h.pin
  | claim span =>
      have hlatest := hlatest span rfl
      rcases p.claim_cases span.start span.last with ⟨first, rest, hlives, hover, hclaim⟩ |
        ⟨hfirst, hclaim⟩
      · rw [SlotPool.serve, hclaim]
        exact h.reused hlatest hlives hover
      · rw [SlotPool.serve, hclaim]
        exact h.opened hlatest hfirst

end Occupied

section Runs

variable {reuse : Reuse} {requests : List Request}

/-- **The slots of a pool are counted by the peak of its claims**, beside those that are pinned. A
slot is new only when all others are held, and then the demand is as high. -/
theorem occupied_after (hstarts : (spansOf requests).Pairwise fun a b => a.start ≤ b.start) :
    Occupied reuse requests (after reuse requests) := by
  induction requests using List.reverseRecOn with
  | nil => exact .nil reuse
  | append_singleton requests request ih =>
      rw [spansOf, List.filterMap_append] at hstarts
      obtain ⟨hfront, _, hlast⟩ := List.pairwise_append.mp hstarts
      rw [after_concat]
      refine (ih hfront).serve fun span hspan earlier hearlier => ?_
      exact hlast earlier hearlier span
        (List.mem_filterMap.mpr ⟨request, List.mem_singleton_self _, hspan⟩)

/-- The claims are served for their spans. -/
theorem map_fst_claimsServed (requests : List Request) :
    (claimsServed reuse requests).map Prod.fst = spansOf requests := by
  unfold claimsServed spansOf
  induction requests using List.reverseRecOn with
  | nil => rfl
  | append_singleton requests request ih =>
      rw [zip_handedOut_concat, List.filterMap_append, List.filterMap_append, List.map_append, ih]
      cases request <;> rfl

/-- A claim is served with a slot. -/
theorem mem_claimsServed {span : Span} {slot : Nat} :
    (span, slot) ∈ claimsServed reuse requests ↔
      (.claim span, slot) ∈ requests.zip (handedOut reuse requests) := by
  unfold claimsServed
  rw [List.mem_filterMap]
  constructor
  · rintro ⟨⟨request, slot'⟩, hmem, hspan⟩
    cases request with
    | pin => cases hspan
    | claim span' =>
        cases hspan
        exact hmem
  · intro hmem
    exact ⟨_, hmem, rfl⟩

/-- What the pool hands out for the claims is shared by no two of them. -/
theorem assigns_claimsServed (h : ∀ request ∈ requests, request.Proper) :
    Assigns reuse (spansOf requests) (claimsServed reuse requests) where
  spans_eq := map_fst_claimsServed requests
  apart := by
    refine List.pairwise_filterMap.mpr ((pairwise_passesOn h).imp ?_)
    rintro ⟨earlier, slot⟩ ⟨later, slot'⟩ hpasses a ha b hb heq
    cases earlier with
    | pin => cases ha
    | claim span =>
        cases later with
        | pin => cases hb
        | claim span' =>
            cases ha
            cases hb
            exact hpasses heq

/-- The claims have the slots that are not pinned. -/
theorem slotsUsed_claimsServed (h : ∀ request ∈ requests, request.Proper) :
    slotsUsed (claimsServed reuse requests) = (after reuse requests).lives.length := by
  have htracks : Tracks reuse (requests.zip (handedOut reuse requests)) (after reuse requests) :=
    tracks_after h
  have hslots : ((claimsServed reuse requests).map Prod.snd).toFinset =
      ((after reuse requests).lives.map Life.slot).toFinset := by
    ext slot
    simp only [List.mem_toFinset, List.mem_map]
    constructor
    · rintro ⟨⟨span, _⟩, hmem, rfl⟩
      obtain ⟨life, hlife, hslot, _⟩ := htracks.held span _ (mem_claimsServed.mp hmem)
      exact ⟨life, hlife, hslot⟩
    · rintro ⟨life, hlife, rfl⟩
      obtain ⟨span, hspan⟩ := htracks.claimed life hlife
      exact ⟨(span, life.slot), mem_claimsServed.mpr hspan, rfl⟩
  rw [slotsUsed, hslots, List.toFinset_card_of_nodup (List.pairwise_map.mpr htracks.distinct),
    List.length_map]

end Runs

end SlotPool

end Stackless.Storage

namespace Stackless

open Storage (Reuse Request Span SlotPool)

/-- **The slot pool is optimal.**  If the claims come in the order of their starts, with slots
pinned between them or not, the pool ends with one slot for each pin, and with as many for the
claims as their peak: the largest number of claims, one of them just starting and the others not
over yet.  No two of the claims share a slot at a time, and no way to give slots to the same claims
without sharing uses fewer. -/
theorem slot_pool_optimal (reuse : Reuse) (requests : List Request)
    (h : ∀ span, .claim span ∈ requests → span.start ≤ span.last)
    (hstarts : (Storage.spansOf requests).Pairwise fun a b => a.start ≤ b.start) :
    (SlotPool.after reuse requests).count =
        Storage.pinsOf requests + Storage.peak reuse (Storage.spansOf requests) ∧
      Storage.Assigns reuse (Storage.spansOf requests) (Storage.claimsServed reuse requests) ∧
      Storage.slotsUsed (Storage.claimsServed reuse requests) =
        Storage.peak reuse (Storage.spansOf requests) ∧
      ∀ given, Storage.Assigns reuse (Storage.spansOf requests) given →
        Storage.slotsUsed (Storage.claimsServed reuse requests) ≤ Storage.slotsUsed given := by
  have hproper := Request.forall_proper_iff.mpr h
  have hoccupied : SlotPool.Occupied reuse requests (SlotPool.after reuse requests) :=
    SlotPool.occupied_after hstarts
  have hused : Storage.slotsUsed (Storage.claimsServed reuse requests) =
      Storage.peak reuse (Storage.spansOf requests) := by
    rw [SlotPool.slotsUsed_claimsServed hproper, hoccupied.length_lives]
  refine ⟨?_, SlotPool.assigns_claimsServed hproper, hused, fun given hgiven => ?_⟩
  · rw [hoccupied.count_eq, hoccupied.length_lives]
  · rw [hused]
    exact hgiven.peak_le hstarts

/-- Requests in the order of their starts, of which at most two hold a slot at a time. -/
def inOrder : List Request :=
  [.claim ⟨1, 9⟩, .pin, .claim ⟨2, 4⟩, .claim ⟨5, 6⟩, .claim ⟨6, 8⟩, .claim ⟨9, 9⟩]

/-- Where a life may end as the next one starts, `inOrder` needs two slots, and a pinned one. -/
theorem slot_pool_optimal_inOrder :
    (∀ span, .claim span ∈ inOrder → span.start ≤ span.last) ∧
      (Storage.spansOf inOrder).Pairwise (fun a b => a.start ≤ b.start) ∧
      (SlotPool.after .inclusive inOrder).count = 1 + 2 ∧
      ∀ given, Storage.Assigns .inclusive (Storage.spansOf inOrder) given →
        2 ≤ Storage.slotsUsed given := by
  have hspans : ∀ span, .claim span ∈ inOrder → span.start ≤ span.last :=
    Request.forall_proper_iff.mp (by decide)
  have hstarts : (Storage.spansOf inOrder).Pairwise fun a b => a.start ≤ b.start := by decide
  have hpeak : Storage.peak .inclusive (Storage.spansOf inOrder) = 2 := by decide
  obtain ⟨hcount, _, hused, hleast⟩ := slot_pool_optimal .inclusive inOrder hspans hstarts
  rw [hused, hpeak] at hleast
  rw [hpeak] at hcount
  exact ⟨hspans, hstarts, hcount, hleast⟩

end Stackless
