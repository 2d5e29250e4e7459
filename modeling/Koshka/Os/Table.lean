import Mathlib.Data.List.Induction
import Koshka.Os.Vmem

namespace Koshka.Os

/-! Whether the table describes the memory that is live.

`vmem_free` leaves the entry of a freed block in the table, and the table is searched from the
front.  When the address is handed out once more, the search still finds the entry of the first
block that was there.
-/

/-- Every live pointer is looked up to the size and the permission that it was allocated with. -/
def Vmem.Describes (vmem : Vmem) (history : List VmemOp) : Prop :=
  ∀ ptr block, liveAt history ptr = some block → allocByPtr vmem ptr = some block

section Table

variable {before history : List VmemOp} {op : VmemOp} {ptr : Pointer} {block first : Allocation}
  {vmem : Vmem}

/-- What is handed out again is handed out as it was the first time. -/
def AsFirst (history : List VmemOp) : Prop :=
  ∀ before size perm ptr, before ++ [.alloc size perm ptr] <+: history →
    ∀ first, firstAt before ptr = some first → first = { ptr, size, perm }

theorem Vmem.Records.describes_iff (records : vmem.Records history) : vmem.Describes history ↔
    ∀ ptr block, liveAt history ptr = some block → firstAt history ptr = some block := by
  refine forall_congr' fun ptr => forall_congr' fun block => imp_congr_right fun live => ?_
  obtain ⟨first, found⟩ := firstAt_of_live live
  rw [records.allocByPtr found, found]

theorem AsFirst.earlier (reused : AsFirst history) (earlier : before <+: history) : AsFirst before :=
  fun older size perm ptr within => reused older size perm ptr (within.trans earlier)

/-- Each live block agrees with the first block at its address. -/
theorem AsFirst.live (reused : AsFirst history) (live : liveAt history ptr = some block) :
    firstAt history ptr = some block := by
  induction history using List.reverseRecOn with
  | nil => cases live
  | append_singleton before op ih =>
      have earlier := ih (reused.earlier (List.prefix_append before [op]))
      cases op with
      | alloc size perm answer =>
          rw [liveAt_alloc] at live
          rw [firstAt_alloc]
          split at live
          · rename_i here
            subst here
            cases live
            cases found : firstAt before answer with
            | none => exact if_pos rfl
            | some first => rw [reused before size perm answer (List.prefix_refl _) first found,
                Option.some_or]
          · rw [earlier live, Option.some_or]
      | free freed =>
          rw [liveAt_free] at live
          rw [firstAt_free]
          split at live
          · cases live
          · exact earlier live

/-- The table describes live memory throughout a history if and only if every address that is
handed out again is handed out for the size and the permission of the first block there. -/
theorem table_describes_iff (history : List VmemOp) (possible : Possible history)
    (few : (allocations history).length ≤ 1024) :
    (∀ before, before <+: history →
      ∃ state, runVmem before = .ok state ∧ state.vmem.Describes before) ↔ AsFirst history := by
  constructor
  · intro describes before size perm ptr earlier first found
    obtain ⟨state, run, described⟩ := describes _ earlier
    have records := runVmem_kept (possible.earlier earlier)
      (Nat.le_trans (allocations_earlier earlier) few) run
    have live : liveAt (before ++ [.alloc size perm ptr]) ptr = some { ptr, size, perm } := by
      rw [liveAt_alloc, if_pos rfl]
    have kept := records.describes_iff.mp described ptr _ live
    rw [firstAt_alloc, found, Option.some_or] at kept
    exact Option.some.inj kept
  · intro reused before earlier
    obtain ⟨state, run, records⟩ := runVmem_records (possible.earlier earlier)
      (Nat.le_trans (allocations_earlier earlier) few)
    exact ⟨state, run, records.describes_iff.mpr fun ptr block live => (reused.earlier earlier).live live⟩

/-- A heap block of sixteen bytes is freed, and its address goes to one of thirty-two. -/
def resized : List VmemOp := [.alloc 16 .memRW 4096, .free 4096, .alloc 32 .memRW 4096]

theorem resized_possible : Possible resized := by
  have allocated : Possible ([] ++ [.alloc 16 .memRW 4096]) := .next .start rfl
  have freed : Possible ([.alloc 16 .memRW 4096] ++ [.free 4096]) := .next allocated nofun
  exact Possible.next freed rfl

theorem table_describes_iff_resized : (∀ before, before <+: resized →
    ∃ state, runVmem before = .ok state ∧ state.vmem.Describes before) ↔ AsFirst resized :=
  table_describes_iff resized resized_possible (by decide)

/-- The entry that is found for the second block is that of the first. -/
theorem table_describes_fails_resized : Possible resized ∧ (allocations resized).length ≤ 1024 ∧
    ∃ state, runVmem resized = .ok state ∧ ¬ state.vmem.Describes resized := by
  obtain ⟨state, run, records⟩ := runVmem_records resized_possible (by decide)
  refine ⟨resized_possible, by decide, state, run, fun described => ?_⟩
  cases records.describes_iff.mp described 4096 _ rfl

end Table

end Koshka.Os
