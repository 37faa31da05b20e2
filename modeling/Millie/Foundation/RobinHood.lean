import Mathlib.Algebra.BigOperators.Group.Finset.Basic
import Mathlib.Algebra.Order.BigOperators.Group.Finset
import Mathlib.Data.Multiset.Count

/-!
# Robin Hood hashing on a ring of slots

A Robin Hood table is a ring of slots in which every entry remembers its
home slot.  Insertion walks the ring from the home slot and exchanges the
entry it carries with any entry that is closer to its own home; lookup walks
the same way and stops as soon as it meets an entry that is closer to home
than the walk is long.

The ordering invariant says that an entry away from home is preceded by an
entry that is at most one step closer to its own home.  This file proves
that insertion keeps the invariant and adds exactly the new entry, and that
lookup never stops before an entry it is looking for.
-/

namespace RobinHood

/-- The slot after `slot` in a ring of `size` slots. -/
def next (size slot : Nat) : Nat :=
  if slot + 1 < size then slot + 1 else 0

/-- The number of steps that lead from `home` to `slot` in the ring. -/
def distance (size home slot : Nat) : Nat :=
  if home ≤ slot then slot - home else slot + size - home

theorem next_lt {size slot : Nat} (nonempty : 0 < size) :
    next size slot < size := by
  unfold next
  split <;> omega

theorem distance_lt {size home slot : Nat}
    (homeLt : home < size) (slotLt : slot < size) :
    distance size home slot < size := by
  unfold distance
  split <;> omega

@[simp]
theorem distance_self (size slot : Nat) : distance size slot slot = 0 := by
  simp [distance]

theorem eq_of_distance_eq_zero {size home slot : Nat}
    (homeLt : home < size) (zero : distance size home slot = 0) :
    home = slot := by
  unfold distance at zero
  split at zero <;> omega

/-- One step further along the ring, short of a full turn. -/
theorem distance_next {size home slot : Nat}
    (homeLt : home < size) (slotLt : slot < size)
    (short : distance size home slot + 1 < size) :
    distance size home (next size slot) = distance size home slot + 1 := by
  unfold distance at short ⊢
  unfold next
  split_ifs at short ⊢ <;> omega

/-- A slot that is not home lies one step after the slot before it. -/
theorem distance_next_of_pos {size home slot : Nat}
    (homeLt : home < size) (slotLt : slot < size)
    (away : 0 < distance size home (next size slot)) :
    distance size home (next size slot) = distance size home slot + 1 := by
  unfold distance next at *
  split_ifs at away ⊢ <;> omega

theorem exists_prev {size slot : Nat} (slotLt : slot < size) :
    ∃ prev, prev < size ∧ next size prev = slot := by
  by_cases first : slot = 0
  · refine ⟨size - 1, by omega, ?_⟩
    unfold next
    split <;> omega
  · refine ⟨slot - 1, by omega, ?_⟩
    unfold next
    split <;> omega

theorem next_injective {size left right : Nat}
    (leftLt : left < size) (rightLt : right < size)
    (equal : next size left = next size right) : left = right := by
  unfold next at equal
  split_ifs at equal <;> omega

section Table

variable {Entry : Type*} (size : Nat) (home : Entry → Nat)

/-- The ring's contents, slot by slot. -/
abbrev Slots (Entry : Type*) := Nat → Option Entry

/-- Every stored entry has its home inside the ring. -/
def Housed (slots : Slots Entry) : Prop :=
  ∀ slot < size, ∀ entry, slots slot = some entry → home entry < size

/--
The ordering invariant: an entry away from home is preceded by an entry that
is at most one step closer to its own home.
-/
def Ordered (slots : Slots Entry) : Prop :=
  ∀ slot < size, ∀ entry, slots (next size slot) = some entry →
    0 < distance size (home entry) (next size slot) →
      ∃ before, slots slot = some before ∧
        distance size (home entry) (next size slot) ≤
          distance size (home before) slot + 1

/-- The stored entries, with multiplicity. -/
def contents (slots : Slots Entry) : Multiset Entry :=
  ∑ slot ∈ Finset.range size, ((slots slot).toList : Multiset Entry)

/-- Carry `entry` along the ring, `steps` steps after its home. -/
def insertFrom :
    Nat → Slots Entry → Entry → Nat → Nat → Option (Slots Entry)
  | 0, _, _, _, _ => none
  | fuel + 1, slots, entry, slot, steps =>
      match slots slot with
      | none => some (Function.update slots slot (some entry))
      | some present =>
          if distance size (home present) slot < steps then
            insertFrom fuel (Function.update slots slot (some entry)) present
              (next size slot) (distance size (home present) slot + 1)
          else
            insertFrom fuel slots entry (next size slot) (steps + 1)

/-- Look for an accepted entry along the ring, `steps` steps after home. -/
def findFrom (accept : Entry → Bool) :
    Nat → Slots Entry → Nat → Nat → Option (Option Entry)
  | 0, _, _, _ => none
  | fuel + 1, slots, slot, steps =>
      match slots slot with
      | none => some none
      | some present =>
          if distance size (home present) slot < steps then some none
          else if accept present then some (some present)
          else findFrom accept fuel slots (next size slot) (steps + 1)

variable {size home} {slots : Slots Entry}

theorem mem_contents {entry : Entry} :
    entry ∈ contents size slots ↔ ∃ slot < size, slots slot = some entry := by
  simp [contents, Multiset.mem_sum]

theorem contents_update (slots : Slots Entry) (entry : Entry)
    {slot : Nat} (slotLt : slot < size) :
    contents size (Function.update slots slot (some entry)) +
        ((slots slot).toList : Multiset Entry) =
      entry ::ₘ contents size slots := by
  have member : slot ∈ Finset.range size := Finset.mem_range.mpr slotLt
  unfold contents
  rw [← Finset.add_sum_erase _ _ member, ← Finset.add_sum_erase _ _ member]
  have rest :
      ∑ other ∈ (Finset.range size).erase slot,
          ((Function.update slots slot (some entry) other).toList :
            Multiset Entry) =
        ∑ other ∈ (Finset.range size).erase slot,
          ((slots other).toList : Multiset Entry) := by
    refine Finset.sum_congr rfl fun other otherMem => ?_
    rw [Function.update_of_ne (Finset.ne_of_mem_erase otherMem)]
  rw [rest, Function.update_self]
  simp only [Option.toList_some, Multiset.coe_singleton,
    ← Multiset.singleton_add, add_comm, add_left_comm]

/-- A table with fewer entries than slots has a free slot. -/
theorem exists_free (room : (contents size slots).card < size) :
    ∃ free < size, slots free = none := by
  by_contra full
  push Not at full
  have each : ∀ slot ∈ Finset.range size,
      1 ≤ ((slots slot).toList : Multiset Entry).card := by
    intro slot member
    obtain ⟨entry, stored⟩ :=
      Option.ne_none_iff_exists'.mp (full slot (Finset.mem_range.mp member))
    simp [stored]
  have count : size ≤ (contents size slots).card := by
    simpa [contents, Multiset.card_sum] using Finset.sum_le_sum each
  omega

/-- The slots between an entry and its home are all occupied. -/
theorem Ordered.occupied_run (ordered : Ordered size home slots)
    (housed : Housed size home slots)
    {slot earlier : Nat} {entry : Entry}
    (slotLt : slot < size) (earlierLt : earlier < size)
    (stored : slots slot = some entry)
    (within : distance size earlier slot ≤ distance size (home entry) slot) :
    ∃ other, slots earlier = some other ∧
      distance size (home entry) slot ≤
        distance size (home other) earlier + distance size earlier slot := by
  induction steps : distance size earlier slot generalizing slot entry with
  | zero =>
      obtain rfl := eq_of_distance_eq_zero earlierLt steps
      exact ⟨entry, stored, by omega⟩
  | succ steps ih =>
      obtain ⟨prev, prevLt, rfl⟩ := exists_prev slotLt
      have entryHome : home entry < size := housed _ slotLt _ stored
      obtain ⟨before, beforeStored, closer⟩ :=
        ordered prev prevLt entry stored (by omega)
      have back := distance_next_of_pos earlierLt prevLt (by omega)
      obtain ⟨other, otherStored, bound⟩ :=
        ih prevLt beforeStored (by omega) (by omega)
      exact ⟨other, otherStored, by omega⟩

/-- The carried entry may stand in `slot`: its predecessor is far enough. -/
def Fits (size : Nat) (home : Entry → Nat) (slots : Slots Entry)
    (entry : Entry) (slot : Nat) : Prop :=
  0 < distance size (home entry) slot →
    ∀ prev < size, next size prev = slot →
      ∃ before, slots prev = some before ∧
        distance size (home entry) slot ≤
          distance size (home before) prev + 1

/-- A carried entry has not gone all the way round while a slot is free. -/
theorem Fits.short (ordered : Ordered size home slots)
    (housed : Housed size home slots)
    {entry present : Entry} {slot free : Nat}
    (entryHome : home entry < size) (slotLt : slot < size)
    (freeLt : free < size) (isFree : slots free = none)
    (stored : slots slot = some present)
    (fits : Fits size home slots entry slot) :
    distance size (home entry) slot + 1 < size := by
  by_contra turned
  have bound := distance_lt entryHome slotLt
  have freeBound := distance_lt freeLt slotLt
  have apart : 0 < distance size free slot := by
    by_contra zero
    have same : distance size free slot = 0 := by omega
    obtain rfl := eq_of_distance_eq_zero freeLt same
    simp [isFree] at stored
  obtain ⟨prev, prevLt, rfl⟩ := exists_prev slotLt
  obtain ⟨before, beforeStored, closer⟩ := fits (by omega) prev prevLt rfl
  have back := distance_next_of_pos freeLt prevLt apart
  obtain ⟨other, otherStored, -⟩ :=
    ordered.occupied_run housed prevLt freeLt beforeStored (by omega)
  simp [isFree] at otherStored

theorem Housed.update (housed : Housed size home slots)
    {entry : Entry} {slot : Nat} (entryHome : home entry < size) :
    Housed size home (Function.update slots slot (some entry)) := by
  intro other otherLt stored equal
  by_cases same : other = slot
  · subst same
    simp only [Function.update_self, Option.some.injEq] at equal
    exact equal ▸ entryHome
  · rw [Function.update_of_ne same] at equal
    exact housed other otherLt stored equal

/--
Putting an entry that fits into a slot keeps the order, when the entry that
follows is at most one step further from home.
-/
theorem Ordered.update (ordered : Ordered size home slots)
    {entry : Entry} {slot : Nat} (slotLt : slot < size)
    (fits : Fits size home slots entry slot)
    (follows : ∀ after, slots (next size slot) = some after →
      0 < distance size (home after) (next size slot) →
        distance size (home after) (next size slot) ≤
          distance size (home entry) slot + 1) :
    Ordered size home (Function.update slots slot (some entry)) := by
  intro prev prevLt after stored away
  by_cases here : next size prev = slot
  · subst here
    simp only [Function.update_self, Option.some.injEq] at stored
    subst stored
    obtain ⟨before, beforeStored, closer⟩ := fits away prev prevLt rfl
    by_cases same : prev = next size prev
    · refine ⟨entry, by rw [← same]; simp, ?_⟩
      rw [← same]
      omega
    · exact ⟨before, by rw [Function.update_of_ne same]; exact beforeStored,
        closer⟩
  · rw [Function.update_of_ne here] at stored
    by_cases same : prev = slot
    · subst same
      exact ⟨entry, by simp, follows after stored away⟩
    · rw [Function.update_of_ne same]
      exact ordered prev prevLt after stored away

/--
Insertion terminates, keeps the order and the homes, and adds exactly the
carried entry.  The fuel is the distance to a free slot.
-/
theorem insertFrom_spec {fuel : Nat} {entry : Entry} {slot free : Nat}
    (ordered : Ordered size home slots) (housed : Housed size home slots)
    (entryHome : home entry < size) (slotLt : slot < size)
    (freeLt : free < size) (isFree : slots free = none)
    (fits : Fits size home slots entry slot)
    (enough : distance size slot free < fuel) :
    ∃ result,
      insertFrom size home fuel slots entry slot
          (distance size (home entry) slot) = some result ∧
        Ordered size home result ∧ Housed size home result ∧
        contents size result = entry ::ₘ contents size slots := by
  induction fuel generalizing slots entry slot with
  | zero => omega
  | succ fuel ih =>
      rw [insertFrom]
      cases stored : slots slot with
      | none =>
          refine ⟨_, rfl, ordered.update slotLt fits ?_,
            housed.update entryHome, ?_⟩
          · intro after afterStored away
            obtain ⟨before, beforeStored, -⟩ :=
              ordered slot slotLt after afterStored away
            simp [stored] at beforeStored
          · simpa [stored] using
              contents_update slots entry slotLt
      | some present =>
          have presentHome := housed slot slotLt present stored
          have nextLt : next size slot < size := next_lt (by omega)
          have apart : slot ≠ free := by
            rintro rfl
            simp [isFree] at stored
          have nearer :
              distance size slot free =
                distance size (next size slot) free + 1 := by
            unfold distance next
            split_ifs <;> omega
          by_cases richer :
              distance size (home present) slot <
                distance size (home entry) slot
          · have bound := distance_lt entryHome slotLt
            have step := distance_next presentHome slotLt
              (show distance size (home present) slot + 1 < size by omega)
            have follows : ∀ after, slots (next size slot) = some after →
                0 < distance size (home after) (next size slot) →
                  distance size (home after) (next size slot) ≤
                    distance size (home entry) slot + 1 := by
              intro after afterStored away
              obtain ⟨before, beforeStored, closer⟩ :=
                ordered slot slotLt after afterStored away
              obtain rfl : present = before := by
                simpa [stored] using beforeStored
              omega
            have carried : Fits size home
                (Function.update slots slot (some entry)) present
                (next size slot) := by
              intro _ prev prevLt prevNext
              obtain rfl := next_injective prevLt slotLt prevNext
              exact ⟨entry, by simp, by omega⟩
            obtain ⟨result, run, resultOrdered, resultHoused, added⟩ :=
              ih (ordered.update slotLt fits follows)
                (housed.update entryHome) presentHome nextLt
                (by rw [Function.update_of_ne apart.symm]; exact isFree)
                carried (by omega)
            refine ⟨result, ?_, resultOrdered, resultHoused, ?_⟩
            · simpa [richer, step] using run
            · have swapped :=
                contents_update slots entry slotLt
              rw [added, ← swapped, stored]
              simp [← Multiset.singleton_add, add_comm]
          · have short :=
              Fits.short ordered housed entryHome slotLt freeLt isFree
                stored fits
            have step := distance_next entryHome slotLt short
            have carried : Fits size home slots entry (next size slot) := by
              intro _ prev prevLt prevNext
              obtain rfl := next_injective prevLt slotLt prevNext
              exact ⟨present, stored, by omega⟩
            obtain ⟨result, run, rest⟩ :=
              ih ordered housed entryHome nextLt isFree carried (by omega)
            exact ⟨result, by simpa [richer, step] using run, rest⟩

/-- Distances add up along a walk that has not passed its goal. -/
theorem distance_split {start slot goal : Nat}
    (startLt : start < size) (slotLt : slot < size) (goalLt : goal < size)
    (ahead : distance size start slot ≤ distance size start goal) :
    distance size start slot + distance size slot goal =
      distance size start goal := by
  unfold distance at *
  split_ifs at ahead ⊢ <;> omega

/--
The walk may stop at a free slot, or at an entry closer to home than the walk
is long: no entry of the same home is stored further along.
-/
theorem Ordered.stop (ordered : Ordered size home slots)
    (housed : Housed size home slots)
    {slot later : Nat} {entry : Entry}
    (slotLt : slot < size) (laterLt : later < size)
    (stored : slots later = some entry)
    (ahead : distance size (home entry) slot ≤
      distance size (home entry) later) :
    ∃ present, slots slot = some present ∧
      distance size (home entry) slot ≤ distance size (home present) slot := by
  have split := distance_split (housed later laterLt entry stored)
    slotLt laterLt ahead
  obtain ⟨present, presentStored, bound⟩ :=
    ordered.occupied_run housed laterLt slotLt stored (by omega)
  exact ⟨present, presentStored, by omega⟩

/-- The loop invariant of lookup, from any slot of the walk. -/
theorem findFrom_walk {accept : Entry → Bool} {start fuel slot free : Nat}
    (ordered : Ordered size home slots) (housed : Housed size home slots)
    (accepts : ∀ entry, accept entry = true → home entry = start)
    (startLt : start < size) (slotLt : slot < size)
    (freeLt : free < size) (isFree : slots free = none)
    (ahead : distance size start slot + distance size slot free =
      distance size start free)
    (enough : distance size slot free < fuel)
    (passed : ∀ earlier < size, ∀ entry, slots earlier = some entry →
      distance size start earlier < distance size start slot →
        accept entry = false) :
    ∃ result,
      findFrom size home accept fuel slots slot
          (distance size start slot) = some result ∧
        (∀ entry, result = some entry →
          accept entry = true ∧ entry ∈ contents size slots) ∧
        (result = none →
          ∀ entry ∈ contents size slots, accept entry = false) := by
  induction fuel generalizing slot with
  | zero => omega
  | succ fuel ih =>
      -- An accepted entry further along keeps this slot occupied far enough.
      have rest : ∀ entry ∈ contents size slots, accept entry = true →
          ∃ present, slots slot = some present ∧
            distance size start slot ≤
              distance size (home present) slot := by
        intro entry member accepted
        obtain ⟨later, laterLt, stored⟩ := mem_contents.mp member
        have sameHome := accepts entry accepted
        have notEarlier :
            ¬ distance size start later < distance size start slot := by
          intro earlier
          simp [passed later laterLt entry stored earlier] at accepted
        have stopped := ordered.stop housed slotLt laterLt stored
          (by rw [sameHome]; omega)
        rwa [sameHome] at stopped
      have rejects (closed : ∀ present, slots slot = some present →
            distance size (home present) slot < distance size start slot) :
          ∀ entry ∈ contents size slots, accept entry = false := by
        intro entry member
        by_contra accepted
        obtain ⟨present, stored, bound⟩ :=
          rest entry member (by simpa using accepted)
        have := closed present stored
        omega
      rw [findFrom]
      cases stored : slots slot with
      | none =>
          exact ⟨none, rfl, by simp, fun _ =>
            rejects (by simp [stored])⟩
      | some present =>
          have apart : slot ≠ free := by
            rintro rfl
            simp [isFree] at stored
          have nearer :
              distance size slot free =
                distance size (next size slot) free + 1 := by
            unfold distance next
            split_ifs <;> omega
          have nextLt : next size slot < size := next_lt (by omega)
          have bound := distance_lt startLt freeLt
          have step := distance_next startLt slotLt
            (show distance size start slot + 1 < size by omega)
          by_cases closer :
              distance size (home present) slot < distance size start slot
          · refine ⟨none, by simp [closer], by simp, fun _ => rejects ?_⟩
            simpa [stored] using closer
          · by_cases accepted : accept present = true
            · refine ⟨some present, by simp [closer, accepted], ?_, by simp⟩
              intro entry equal
              obtain rfl := Option.some.inj equal
              exact ⟨accepted, mem_contents.mpr ⟨slot, slotLt, stored⟩⟩
            · obtain ⟨result, run, found⟩ :=
                ih nextLt (by omega)
                  (by omega) (by
                    intro earlier earlierLt entry entryStored before
                    by_cases here : earlier = slot
                    · subst here
                      obtain rfl : present = entry := by
                        simpa [stored] using entryStored
                      simpa using accepted
                    · refine passed earlier earlierLt entry entryStored ?_
                      have differ : distance size start earlier ≠
                          distance size start slot := by
                        unfold distance
                        split_ifs <;> omega
                      omega)
              exact ⟨result, by simpa [closer, accepted, step] using run,
                found⟩

/--
Lookup terminates; it returns an accepted stored entry when it returns one,
and otherwise no stored entry is accepted.
-/
theorem findFrom_spec {accept : Entry → Bool} {start fuel free : Nat}
    (ordered : Ordered size home slots) (housed : Housed size home slots)
    (accepts : ∀ entry, accept entry = true → home entry = start)
    (startLt : start < size)
    (freeLt : free < size) (isFree : slots free = none)
    (enough : size ≤ fuel) :
    ∃ result,
      findFrom size home accept fuel slots start 0 = some result ∧
        (∀ entry, result = some entry →
          accept entry = true ∧ entry ∈ contents size slots) ∧
        (result = none →
          ∀ entry ∈ contents size slots, accept entry = false) := by
  have bound := distance_lt startLt freeLt
  have walk := findFrom_walk ordered housed accepts startLt startLt freeLt
    isFree (by simp) (show distance size start free < fuel by omega)
    (by simp)
  simpa using walk

end Table

end RobinHood
