import Mathlib.Data.Finset.Card
import Mathlib.Data.List.Basic

/-!
# Waiting on a condition variable

The threads that share a monitor, as a list: each is outside, about to take the mutex, asleep
on the condition variable, or woken and about to take the mutex again. What a thread remembers
of its call is a parameter. A wake-up picks a sleeper, and is lost if nobody sleeps.

## Main definitions

* `Waiter` — where a thread is
* `notifyOne`, `notifyAll` — the two kinds of wake-ups
* `noteWoken` — the record of the threads that were notified
* `NoneLost` — while a thread sleeps, there are as many threads about to run as items to take

## Main results

* `NoneLost.release`, `NoneLost.retake`, `NoneLost.wake`, `NoneLost.enter` — an item comes, a
  thread has its turn, a thread wakes up, a thread arrives
-/

namespace MmorpgServer.CondVar

/-- Where a thread is that may call an operation of a monitor. -/
inductive Waiter (π : Type*) where
  | out
  /-- before the mutex is taken first -/
  | entering (call : π)
  /-- waiting on the condition variable -/
  | asleep (call : π)
  /-- woken, before the mutex is taken again -/
  | woken (call : π)
  deriving DecidableEq

variable {π : Type*}

def Waiter.sleeps : Waiter π → Bool
  | .asleep _ => true
  | _ => false

def Waiter.wake : Waiter π → Waiter π
  | .asleep call => .woken call
  | w => w

/-- Wake one of the sleepers, the thread `k`. It must be one if there is one. -/
def notifyOne (ws : List (Waiter π)) (k : ℕ) : Option (List (Waiter π)) :=
  if ws.any Waiter.sleeps then
    match ws[k]? with
    | some (.asleep call) => some (ws.set k (.woken call))
    | _ => none
  else some ws

/-- Wake all sleepers. -/
def notifyAll (ws : List (Waiter π)) : List (Waiter π) := ws.map Waiter.wake

/-- The record of the threads that were notified, when the thread `k` may have been woken. -/
def noteWoken (ws ws' : List (Waiter π)) (k : ℕ) (notified : Finset ℕ) : Finset ℕ :=
  if ws[k]?.any Waiter.sleeps ∧ ¬ ws'[k]?.any Waiter.sleeps then insert k notified else notified

variable {ws ws' : List (Waiter π)} {notified : Finset ℕ} {items n i k : ℕ} {call : π}
  {w : Waiter π}

/-- The threads `notified` were woken and have not taken the mutex again; and while another
thread sleeps, there are not more items than these threads. -/
structure NoneLost (ws : List (Waiter π)) (notified : Finset ℕ) (items : ℕ) : Prop where
  woken : ∀ k ∈ notified, ∃ call, ws[k]? = some (.woken call)
  enough : ∀ (k : ℕ) (call : π), ws[k]? = some (.asleep call) → items ≤ notified.card

/-- Nobody sleeps. -/
theorem NoneLost.init (h : ∀ w ∈ ws, ∀ call, w ≠ .asleep call) : NoneLost ws ∅ items where
  woken k hk := absurd hk (Finset.notMem_empty k)
  enough _ call hi := absurd rfl (h _ (List.mem_of_getElem? hi) call)

/-- While there is an item and a thread sleeps, another was notified and is about to run. -/
theorem NoneLost.someone (h : NoneLost ws notified items) (hi : ws[i]? = some (.asleep call))
    (hpos : 0 < items) : ∃ k ∈ notified, ∃ call, ws[k]? = some (.woken call) := by
  obtain ⟨k, hk⟩ := Finset.card_pos.mp (hpos.trans_le (h.enough i call hi))
  exact ⟨k, hk, h.woken k hk⟩

theorem getElem?_set_cases {w' : Waiter π} (h : (ws.set i w)[k]? = some w') :
    (k = i ∧ w' = w) ∨ k ≠ i ∧ ws[k]? = some w' := by
  by_cases hk : k = i
  · subst hk
    rw [List.getElem?_set_self'] at h
    obtain ⟨_, -, rfl⟩ := Option.map_eq_some_iff.mp h
    exact Or.inl ⟨rfl, rfl⟩
  · rw [List.getElem?_set_ne (Ne.symm hk)] at h
    exact Or.inr ⟨hk, h⟩

/-- The thread `i` has its turn, and takes an item or finds none. It may go to sleep if there is
none left. -/
theorem NoneLost.retake (h : NoneLost ws notified items) (hn : n + 1 ≤ items ∨ n = 0)
    (hw : ∀ call, w = .asleep call → n = 0) : NoneLost (ws.set i w) (notified.erase i) n where
  woken k hk := by
    obtain ⟨hki, hk⟩ := Finset.mem_erase.mp hk
    rw [List.getElem?_set_ne hki.symm]
    exact h.woken k hk
  enough k call hk := by
    rcases getElem?_set_cases hk with ⟨-, hwk⟩ | ⟨-, hk⟩
    · rw [hw call hwk.symm]
      exact Nat.zero_le _
    · have henough := h.enough k call hk
      have hcard := Finset.pred_card_le_card_erase (s := notified) (a := i)
      omega

/-- A thread that was outside arrives. -/
theorem NoneLost.enter (h : NoneLost ws notified items) (hi : ws[i]? = some .out) (call : π) :
    NoneLost (ws.set i (.entering call)) notified items where
  woken k hk := by
    obtain ⟨call', hcall⟩ := h.woken k hk
    have hki : k ≠ i := by
      rintro rfl
      rw [hi] at hcall
      cases hcall
    exact ⟨call', (List.getElem?_set_ne hki.symm).trans hcall⟩
  enough k call' hk := by
    rcases getElem?_set_cases hk with ⟨-, hwk⟩ | ⟨-, hk⟩
    · cases hwk
    · exact h.enough k call' hk

/-- A thread that sleeps or was woken is awake now, and may be counted as notified. -/
theorem NoneLost.wake (h : NoneLost ws notified items)
    (hi : ws[i]? = some (.asleep call) ∨ ws[i]? = some (.woken call)) (call' : π)
    {notified' : Finset ℕ} (hsub : notified ⊆ notified')
    (hnew : ∀ k ∈ notified', k = i ∨ k ∈ notified) :
    NoneLost (ws.set i (.woken call')) notified' items where
  woken k hk := by
    have hself : (ws.set i (.woken call'))[i]? = some (.woken call') := by
      apply List.getElem?_set_self
      rcases hi with hi | hi
      · exact (List.getElem?_eq_some_iff.mp hi).1
      · exact (List.getElem?_eq_some_iff.mp hi).1
    by_cases hki : k = i
    · subst hki
      exact ⟨call', hself⟩
    · rw [List.getElem?_set_ne (Ne.symm hki)]
      exact h.woken k ((hnew k hk).resolve_left hki)
  enough k call'' hk := by
    rcases getElem?_set_cases hk with ⟨-, hwk⟩ | ⟨-, hk⟩
    · cases hwk
    · exact (h.enough k call'' hk).trans (Finset.card_le_card hsub)

/-- What `notifyOne` does. -/
theorem notifyOne_cases (h : notifyOne ws k = some ws') :
    ((∀ (i : ℕ) (call : π), ws[i]? ≠ some (.asleep call)) ∧ ws' = ws) ∨
    ∃ call, ws[k]? = some (.asleep call) ∧ ws' = ws.set k (.woken call) := by
  unfold notifyOne at h
  split_ifs at h with hany
  · split at h
    · rename_i call hk
      exact Or.inr ⟨call, hk, (Option.some.inj h).symm⟩
    · cases h
  · refine Or.inl ⟨fun i call hi => hany ?_, (Option.some.inj h).symm⟩
    exact List.any_eq_true.mpr ⟨_, List.mem_of_getElem? hi, rfl⟩

/-- At most one item more, and a thread is notified. -/
theorem NoneLost.release (h : NoneLost ws notified items) (hone : notifyOne ws k = some ws')
    (hn : n ≤ items + 1) : NoneLost ws' (noteWoken ws ws' k notified) n := by
  rcases notifyOne_cases hone with ⟨hnone, rfl⟩ | ⟨call, hk, rfl⟩
  · have hsame : noteWoken ws' ws' k notified = notified := if_neg fun hboth => hboth.2 hboth.1
    rw [hsame]
    exact ⟨h.woken, fun i call hi => absurd hi (hnone i call)⟩
  · obtain ⟨hlt, -⟩ := List.getElem?_eq_some_iff.mp hk
    have hself : (ws.set k (.woken call))[k]? = some (.woken call) := List.getElem?_set_self hlt
    have hnew : noteWoken ws (ws.set k (.woken call)) k notified = insert k notified := by
      apply if_pos
      rw [hk, hself]
      exact ⟨rfl, Bool.false_ne_true⟩
    -- a sleeper has not been notified, so that there is one more
    have hout : k ∉ notified := fun hin => by
      obtain ⟨call', hcall⟩ := h.woken k hin
      rw [hk] at hcall
      cases hcall
    rw [hnew]
    have hwake := h.wake (Or.inl hk) call (Finset.subset_insert k notified) fun j hj =>
      Finset.mem_insert.mp hj
    refine ⟨hwake.woken, fun i call' _ => ?_⟩
    rw [Finset.card_insert_of_notMem hout]
    exact hn.trans (Nat.succ_le_succ (h.enough k call hk))

end MmorpgServer.CondVar
