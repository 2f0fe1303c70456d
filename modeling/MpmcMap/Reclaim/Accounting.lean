import MpmcMap.Reclaim.EpochAccount
import MpmcMap.Reclaim.HazardAccount

/-!
# Exactly-once reclamation

Both reclaimers, under any number of threads that retire each object once, with allocations that
fail at any push and orphans at any addresses, the addresses of deleted ones included.
-/

namespace MpmcMap.Reclaim

open Conc

/-- Whatever the threads do, the action of an accepted object runs at most once and on that object,
and the object of every call of `retire` that has returned is accepted, with the action of the call.
Whenever no thread is inside a call, the accepted objects are those of the calls that have returned,
the vectors of every thread are aligned, `outstanding` counts the accepted objects whose action has
not run, each of these is in one list or on the late chain, once, and the late chain is acyclic. -/
theorem exactly_once (address : Nat → Nat) :
    (∀ c, Epoch.Account.accounts.Reachable { Epoch.State.init with address := address } c →
      (Epoch.Account.books c.shared).RunOnce ∧
        (∀ x ∈ c.shared.returned, x ∈ c.shared.accepted) ∧ ((∀ t, c.thread t = none) →
          (∀ t, Epoch.Account.Aligned (c.shared.tls t)) ∧
            c.shared.returned.Perm c.shared.accepted ∧
              (Epoch.Account.books c.shared).Balanced
                fun t => Epoch.Account.listed (c.shared.tls t))) ∧
    (∀ c, Hazard.Account.accounts.Reachable { Hazard.State.init with address := address } c →
      (Hazard.Account.books c.shared).RunOnce ∧
        (∀ x ∈ c.shared.returned, x ∈ c.shared.accepted) ∧ ((∀ t, c.thread t = none) →
          (∀ t, (c.shared.tls t).retired.length = (c.shared.tls t).retiredActions.length) ∧
            c.shared.returned.Perm c.shared.accepted ∧
              (Hazard.Account.books c.shared).Balanced
                fun t => (c.shared.tls t).retired.zip (c.shared.tls t).retiredActions)) :=
  ⟨Epoch.Account.reach_accounts address, Hazard.Account.reach_accounts address⟩

/-- Thread 0 retires 7, fails to retire 8, retires 9 and exits; thread 1, publishing 7, retires 10
and scans. -/
def handedOn : List (Label Hazard.Account.Call) :=
  let alone (t n : Nat) : List (Label Hazard.Account.Call) := List.replicate n (.step t false)
  [.call 1 (.protect 0 (some 7))] ++ alone 1 8 ++ [.ret 1, .call 0 (.retire 7 ⟨1⟩)] ++ alone 0 4 ++
  [.ret 0, .call 0 (.retire 8 ⟨2⟩)] ++ alone 0 2 ++ [.step 0 true] ++ alone 0 3 ++
  [.ret 0, .call 0 (.retire 9 ⟨3⟩)] ++ alone 0 4 ++ [.ret 0, .call 0 .finalizeThread] ++
  alone 0 46 ++ [.ret 0, .call 1 (.retire 10 ⟨4⟩)] ++ alone 1 4 ++ [.ret 1, .call 1 .reclaim] ++
  alone 1 40 ++ [.ret 1]

/-- The calls for 7, 9 and 10 have returned; 7 waits for thread 1. -/
theorem exactly_once_run :
    ∃ c, Hazard.Account.accounts.Reachable { Hazard.State.init with address := id } c ∧
      (c.shared.returned, c.shared.ran, c.shared.outstanding) =
        ([(7, ⟨1⟩), (9, ⟨3⟩), (10, ⟨4⟩)], [(9, ⟨3⟩), (10, ⟨4⟩)], 1) ∧
      c.shared.returned.Perm c.shared.accepted ∧
      (Hazard.Account.books c.shared).Balanced
        fun t => (c.shared.tls t).retired.zip (c.shared.tls t).retiredActions := by
  have hrun : (Hazard.Account.accounts.exec (SharedObject.start Hazard.State.init) handedOn).map
      (fun c => ((c.shared.returned, c.shared.ran, c.shared.outstanding),
        (c.thread 0).isNone, (c.thread 1).isNone)) =
      some (([(7, ⟨1⟩), (9, ⟨3⟩), (10, ⟨4⟩)], [(9, ⟨3⟩), (10, ⟨4⟩)], 1), true, true) := by rfl
  obtain ⟨c, hc, hval⟩ := Option.map_eq_some_iff.mp hrun
  simp only [Prod.mk.injEq, Option.isNone_iff_eq_none] at hval
  obtain ⟨hshared, h0, h1⟩ := hval
  have hreach := Hazard.Account.accounts.reachable_exec handedOn hc
  have hnone : ∀ t, c.thread t = none := by
    intro t
    by_cases ht : t ∈ handedOn.map Label.thread
    · have hall : (handedOn.map Label.thread).all (· < 2) = true := by rfl
      have hlt : t < 2 := by simpa using List.all_eq_true.mp hall t ht
      obtain rfl | rfl : t = 0 ∨ t = 1 := by omega
      · exact h0
      · exact h1
    · rw [Hazard.Account.accounts.execIf_other handedOn hc ht]
      rfl
  obtain ⟨-, -, hquiet⟩ := (exactly_once id).2 c hreach
  exact ⟨c, hreach, by simpa using hshared, (hquiet hnone).2⟩

end MpmcMap.Reclaim
