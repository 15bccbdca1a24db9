import MmorpgServer.Lib.CondVar
import Mathlib.Data.Int.Basic

/-!
# Clients of a connection pool

What the two connection pools have in common: pointers to connections, attempts to make one,
and the record of which client has which connection.

## Main definitions

* `ConnPtr`, `Attempt`, `Event`
* `listed` — the search for a connection in the free list
* `Makes` — what the loop of `Init` makes
* `hold`, `unhold` — a client gets a connection and gives it back

## Main results

* `exists_makes` — a loop like that of `Init`
-/

namespace MmorpgServer.ConnPool

/-- A pointer to a connection; `none` is `NULL`. -/
abbrev ConnPtr := Option ℕ

/-- `new` of a connection and its `Init`: the address, and what `Init` returned. -/
structure Attempt where
  conn : ℕ
  ret : ℤ
  deriving DecidableEq

/-- What is seen of a run. -/
inductive Event where
  /-- `GetDBConn` or `GetCacheConn` returns in client `i` -/
  | got (i : ℕ) (conn : ConnPtr)
  /-- client `i` calls `RelDBConn` or `RelCacheConn` -/
  | rel (i : ℕ) (conn : ConnPtr)
  deriving DecidableEq

/-- The loop of `RelDBConn` and `RelCacheConn` over the free list. -/
def listed (freeList : List ConnPtr) (conn : ConnPtr) : Bool :=
  freeList.any fun c => decide (c = conn)

theorem listed_iff {freeList : List ConnPtr} {conn : ConnPtr} :
    listed freeList conn = true ↔ conn ∈ freeList := by
  simp [listed]

/-- The loop of `Init` makes the connections `made` one after the other: `n` of them, or fewer when
an attempt fails. -/
inductive Makes : (live : List ℕ) → (n : ℕ) → List Attempt → (made : List ℕ) → Prop where
  | done (live : List ℕ) (attempts : List Attempt) : Makes live 0 attempts []
  | failed {live : List ℕ} {t : Attempt} (n : ℕ) (attempts : List Attempt) (hconn : t.conn ∉ live)
      (hret : t.ret ≠ 0) : Makes live (n + 1) (t :: attempts) []
  | next {live made : List ℕ} {t : Attempt} {n : ℕ} {attempts : List Attempt}
      (hconn : t.conn ∉ live) (hret : t.ret = 0) (hrest : Makes (t.conn :: live) n attempts made) :
      Makes live (n + 1) (t :: attempts) (t.conn :: made)

/-- A loop like that of `Init` puts what it makes behind what there is: all that is to go if it
returns `0`, and fewer otherwise. -/
theorem exists_makes {P : Type} {loop : P → List ℕ → ℕ → List Attempt → Option (P × List ℕ × ℤ)}
    {add : P → ℕ → P} {code : Attempt → ℤ}
    (hdone : ∀ pool live attempts, loop pool live 0 attempts = some (pool, live, 0))
    (hnil : ∀ pool live n, loop pool live (n + 1) [] = none)
    (hcons : ∀ pool live n t attempts, loop pool live (n + 1) (t :: attempts) =
      if t.conn ∈ live then none
      else if t.ret ≠ 0 then some (pool, live, code t)
      else loop (add pool t.conn) (t.conn :: live) n attempts)
    (hcode : ∀ t, t.ret ≠ 0 → code t ≠ 0) {pool pool' : P} {live live' : List ℕ} {n : ℕ}
    {attempts : List Attempt} {ret : ℤ}
    (hrun : loop pool live n attempts = some (pool', live', ret)) :
    ∃ made, Makes live n attempts made ∧ pool' = made.foldl add pool ∧
      live' = made.reverse ++ live ∧ (ret = 0 → made.length = n) ∧
      (ret ≠ 0 → made.length < n) := by
  induction n generalizing pool live attempts with
  | zero =>
    rw [hdone] at hrun
    cases hrun
    exact ⟨[], .done _ attempts, rfl, rfl, fun _ => rfl, fun hret => absurd rfl hret⟩
  | succ n ih =>
    cases attempts with
    | nil =>
      rw [hnil] at hrun
      cases hrun
    | cons t attempts =>
      rw [hcons] at hrun
      split_ifs at hrun with hlive hret
      · cases hrun
        exact ⟨[], .failed n attempts hlive hret, rfl, rfl,
          fun hzero => absurd hzero (hcode t hret), fun _ => Nat.succ_pos n⟩
      · obtain ⟨made, hmakes, rfl, rfl, hall, hfewer⟩ := ih hrun
        exact ⟨t.conn :: made, .next hlive (not_not.mp hret) hmakes, rfl, by simp,
          fun hzero => congrArg (· + 1) (hall hzero), fun hne => Nat.succ_lt_succ (hfewer hne)⟩

/-- The record of the connections that clients got and have not given back. -/
abbrev Held := List (ℕ × ℕ)

/-- Client `i` gets a connection, or `NULL`. -/
def hold (held : Held) (i : ℕ) : ConnPtr → Held
  | some a => (i, a) :: held
  | none => held

/-- Client `i` gives a pointer back; the connection was its own if the record says so. -/
def unhold (held : Held) (i : ℕ) : ConnPtr → Held
  | some a => held.erase (i, a)
  | none => held

end MmorpgServer.ConnPool
