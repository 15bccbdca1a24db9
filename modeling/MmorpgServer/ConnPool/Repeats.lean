import MmorpgServer.ConnPool.Circulation

/-!
# Releasing a connection twice

The search of `RelDBConn` keeps a connection that was released before from being appended to the
free list again, as long as it stands there. When another client has taken it in the meantime, the
second release puts it back although it is used.

## Main definitions

* `Obtained` — clients release what they got at some time, as often as they like
* `Harmless` — a repeated release changes neither list
* `Unshared` — no connection has two holders

## Main results

* `harmless_iff_safe` — repeated releases are harmless iff what is released again is free
* `repeated_release_shares` — a connection that two clients have
-/

namespace MmorpgServer.ConnPool.DB

open Machine CondVar Loan

variable {s s' : Sys} {tr evs : List Event} {act : Act} {conn : ConnPtr} {i k a : ℕ}

/-- Clients release connections that they got, be it for the first time or not. -/
def Obtained (st : Sys × List Event) : Act → Prop
  | .rel i conn _ => ∃ a, conn = some a ∧ Event.got i (some a) ∈ st.2
  | _ => True

/-- Whoever releases a connection that it does not hold any more changes neither list. -/
def Harmless (s : Sys) : Act → Prop
  | .rel i conn k => ∀ a, conn = some a → (i, a) ∉ s.held →
      ∀ pool s' evs, s.pool = some pool → step s (.rel i conn k) = some (s', evs) →
        ∃ pool', s'.pool = some pool' ∧ pool'.freeList = pool.freeList ∧
          pool'.usedList = pool.usedList
  | _ => True

/-- No connection has been handed to a client while another, or the same, holds it. -/
def Unshared (s : Sys) : Prop := (s.held.map Prod.snd).Nodup

/-- A release that is carried out is harmless iff the connection is held or free. -/
theorem harmless_rel_iff (hstep : step s (.rel i (some a) k) = some (s', evs)) :
    Harmless s (.rel i (some a) k) ↔ Safe s (.rel i (some a) k) := by
  constructor
  · intro hharmless
    refine ⟨a, rfl, ?_⟩
    by_contra! hneither
    obtain ⟨hheld, pool, hpool, hfree⟩ := hneither
    obtain ⟨pool', hpool', hsame, -⟩ := hharmless a rfl hheld pool s' evs hpool hstep
    -- a release that goes through makes the free list longer
    cases step_does hstep with
    | wake call hact => simp at hact
    | again i k hpool₁ hlisted =>
      obtain rfl := Option.some.inj (hpool.symm.trans hpool₁)
      exact hfree hlisted
    | release i hpool₁ hlisted =>
      obtain rfl := Option.some.inj (hpool.symm.trans hpool₁)
      obtain rfl := Option.some.inj hpool'
      simp at hsame
  · -- what is not held must be free, and then the release goes no further
    rintro ⟨_, ⟨⟩, hsafe⟩ _ ⟨⟩ hheld pool s₁ evs₁ hpool hstep₁
    have hfree := hsafe.resolve_left hheld pool hpool
    cases step_does hstep₁ with
    | wake call hact => simp at hact
    | again i k hpool₁ hlisted => exact ⟨pool, hpool, rfl, rfl⟩
    | release i hpool₁ hlisted =>
      obtain rfl := Option.some.inj (hpool.symm.trans hpool₁)
      exact absurd hfree hlisted

/-- The same for every step of clients that release what they got. -/
theorem harmless_iff_safe_step (hobtained : Obtained (s, tr) act)
    (hstep : step s act = some (s', evs)) : Harmless s act ↔ Safe s act := by
  cases act with
  | rel i conn k =>
    obtain ⟨a, rfl, -⟩ := hobtained
    exact harmless_rel_iff hstep
  | call | get | timeout | spurious | destroy | finish => exact Iff.rfl

theorem Circulating.unshared (h : Circulating s) (hpool : s.pool = some pool) : Unshared s := by
  obtain ⟨⟨free, cur, hacc⟩, -⟩ := h pool hpool
  exact hacc.lent.held_nodup

/-- While the pool exists its lists tell that nothing is shared, and without it nothing is handed
out. -/
theorem unshared_step (h : Unshared s) (hcirc : Circulating s') (hdoes : Does s act s' evs) :
    Unshared s' := by
  cases hdoes with
  | call | sleep | wake | null | finish => exact h
  | again i k hpool => exact hcirc.unshared hpool
  | take | grow | release | destroy => exact hcirc.unshared rfl

/-- **Repeated releases are harmless exactly while what is released again is free.** In every run of
clients that release what they got, once or more often, every repeated release leaves both lists
as they are and no connection ever has two holders, iff every connection that is released is
held by the client or stands in the free list. -/
theorem harmless_iff_safe (clients : ℕ) (maxConnCnt ret : ℤ) (attempts : List Attempt)
    (s₀ s : Sys) (tr : List Event) (acts : List Act)
    (hinit : init (create clients maxConnCnt) attempts = some (s₀, ret))
    (hobtained : Guarded (traced step) Obtained (s₀, []) acts)
    (hrun : exec (traced step) (s₀, []) acts = some (s, tr)) :
    (Guarded (traced step) (fun st => Harmless st.1) (s₀, []) acts ∧
        Throughout (traced step) (fun st => Unshared st.1) (s₀, []) acts) ↔
      Guarded (traced step) (fun st => Safe st.1) (s₀, []) acts := by
  have henabled := hobtained.and_enabled hrun
  constructor
  · rintro ⟨hharmless, -⟩
    refine (henabled.and hharmless).imp ?_
    rintro ⟨s, tr⟩ act ⟨⟨hobtained, st', hone⟩, hharmless⟩
    obtain ⟨s', evs, hstep, rfl⟩ := traced_eq_some.mp hone
    exact (harmless_iff_safe_step hobtained hstep).mp hharmless
  · intro hsafe
    refine ⟨(henabled.and hsafe).imp ?_, ?_⟩
    · rintro ⟨s, tr⟩ act ⟨⟨hobtained, st', hone⟩, hsafe⟩
      obtain ⟨s', evs, hstep, rfl⟩ := traced_eq_some.mp hone
      exact (harmless_iff_safe_step hobtained hstep).mpr hsafe
    · -- the account of the lists is the invariant from which nothing is shared
      obtain ⟨hcirc, hheld⟩ := init_circulating hinit
      refine throughout_of_guarded (I := fun st => Circulating st.1) ?_ (hsafe.and_enabled hrun)
        hcirc (by simp [Unshared, hheld])
      rintro ⟨s, tr⟩ act ⟨hsafe, st', hone⟩ hcirc hunshared
      obtain ⟨s', evs, hstep, rfl⟩ := traced_eq_some.mp hone
      have hcirc' := circulating_step hcirc hsafe (step_does hstep)
      exact ⟨_, hone, hcirc', unshared_step hunshared hcirc' (step_does hstep)⟩

/-- Client `0` gives a connection back, client `1` takes it, and client `0` releases it again: the
connection stands in the free list while it is used, and client `2` gets it as well. -/
theorem repeated_release_shares : ∃ s₀ s u tr tr',
    init (create 3 2) [⟨10, 0⟩, ⟨11, 0⟩] = some (s₀, 0) ∧
    Guarded (traced step) Obtained (s₀, []) [.call 0 (-1), .get 0 ⟨12, 0⟩, .rel 0 (some 10) 0,
      .call 1 (-1), .get 1 ⟨12, 0⟩, .call 1 (-1), .get 1 ⟨12, 0⟩, .rel 0 (some 10) 0,
      .call 2 (-1), .get 2 ⟨12, 0⟩] ∧
    exec (traced step) (s₀, []) [.call 0 (-1), .get 0 ⟨12, 0⟩, .rel 0 (some 10) 0,
      .call 1 (-1), .get 1 ⟨12, 0⟩, .call 1 (-1), .get 1 ⟨12, 0⟩] = some (s, tr) ∧
    ¬ Harmless s (.rel 0 (some 10) 0) ∧
    exec (traced step) (s, tr) [.rel 0 (some 10) 0, .call 2 (-1), .get 2 ⟨12, 0⟩] =
      some (u, tr') ∧
    (1, 10) ∈ u.held ∧ (2, 10) ∈ u.held := by
  refine ⟨_, _, _, _, _, rfl, ?_, rfl, fun hharmless => ?_, rfl, by decide, by decide⟩
  · refine .cons trivial rfl (.cons trivial rfl (.cons ⟨10, rfl, by decide⟩ rfl ?_))
    refine .cons trivial rfl (.cons trivial rfl (.cons trivial rfl (.cons trivial rfl ?_)))
    refine .cons ⟨10, rfl, by decide⟩ rfl ?_
    exact .cons trivial rfl (.cons trivial rfl trivial)
  · obtain ⟨pool', hpool', hfree, -⟩ := hharmless 10 rfl (by decide) _ _ _ rfl rfl
    obtain rfl := Option.some.inj hpool'
    cases hfree

/-- Here client `0` releases its connection twice before anybody takes it. -/
theorem harmless_iff_safe_twice : ∃ s₀ s tr,
    init (create 2 2) [⟨10, 0⟩, ⟨11, 0⟩] = some (s₀, 0) ∧
    exec (traced step) (s₀, []) [.call 0 (-1), .get 0 ⟨12, 0⟩, .rel 0 (some 10) 0,
      .rel 0 (some 10) 0, .call 1 (-1), .get 1 ⟨12, 0⟩] = some (s, tr) ∧
    Guarded (traced step) (fun st => Harmless st.1) (s₀, []) [.call 0 (-1), .get 0 ⟨12, 0⟩,
      .rel 0 (some 10) 0, .rel 0 (some 10) 0, .call 1 (-1), .get 1 ⟨12, 0⟩] := by
  refine ⟨_, _, _, rfl, rfl, ((harmless_iff_safe 2 2 0 [⟨10, 0⟩, ⟨11, 0⟩] _ _ _ _ rfl ?_ rfl).mpr
    ?_).1⟩
  · refine .cons trivial rfl (.cons trivial rfl (.cons ⟨10, rfl, by decide⟩ rfl ?_))
    exact .cons ⟨10, rfl, by decide⟩ rfl (.cons trivial rfl (.cons trivial rfl trivial))
  · refine .cons trivial rfl (.cons trivial rfl (.cons ⟨10, rfl, Or.inl (by decide)⟩ rfl ?_))
    refine .cons ⟨10, rfl, Or.inr fun pool hpool => ?_⟩ rfl ?_
    · obtain rfl := Option.some.inj hpool
      decide
    · exact .cons trivial rfl (.cons trivial rfl trivial)

end MmorpgServer.ConnPool.DB
