import MmorpgServer.ConnPool.DBPool
import MmorpgServer.ConnPool.CachePool
import MmorpgServer.Lib.Loan
import MmorpgServer.Lib.Machine
import Mathlib.Tactic.Ring

/-!
# Connections are never shared or lost

Every connection of a pool is free or held by one client, whichever way `GetDBConn` and
`GetCacheConn` are left: with a free connection, after a wait with or without a limit, with a
new connection, or with none. The connections are items on loan, and a call of the pool is one
operation on the loans or none.

## Main definitions

* `Accounted` — the free list and the record of the clients are loans, and all are counted
* `Exclusive` — what this means for the clients
* `DB.Disciplined`, `Cache.Disciplined` — clients give back what they got, once

## Main results

* `DB.inv_step`, `Cache.inv_step` — every step of disciplined clients keeps the account
* `pools_never_share` — both pools, over all runs
-/

namespace MmorpgServer.ConnPool

open Loan Machine CondVar

/-! ### Loans -/

/-- The free list holds the connections `free`, the clients hold the others, and `cur` counts
them all. -/
structure Accounted (freeList : List ConnPtr) (held : Held) (cur : ℤ) (live free : List ℕ) :
    Prop where
  free_eq : freeList = free.map some
  lent : Lent free held
  count : cur = free.length + held.length
  live : ∀ a ∈ free ++ held.map Prod.snd, a ∈ live

variable {freeList : List ConnPtr} {held : Held} {cur : ℤ} {live free : List ℕ} {i a : ℕ}
  {conn : ConnPtr}

/-- A new connection. -/
theorem Accounted.grow (h : Accounted freeList held cur live free) (ha : a ∉ live) :
    Accounted (freeList ++ [some a]) held (cur + 1) (a :: live) (free ++ [a]) := by
  have hnew : a ∉ free ++ held.map Prod.snd := fun hmem => ha (h.live a hmem)
  rw [List.mem_append, not_or] at hnew
  refine ⟨?_, h.lent.add hnew.1 hnew.2, ?_, fun b hb => ?_⟩
  · rw [h.free_eq, List.map_append]
    rfl
  · rw [h.count, List.length_append, List.length_singleton]
    push_cast
    ring
  · rw [List.append_assoc, List.mem_append, List.mem_append, List.mem_singleton] at hb
    rcases hb with hb | rfl | hb
    · exact List.mem_cons_of_mem a (h.live b (List.mem_append_left _ hb))
    · exact List.mem_cons_self
    · exact List.mem_cons_of_mem a (h.live b (List.mem_append_right _ hb))

/-- The connections that the loop of `Init` has made. -/
theorem Accounted.makes {made : List ℕ} {n : ℕ} {attempts : List Attempt}
    (h : Accounted freeList held cur live free) (hmakes : Makes live n attempts made) :
    ∃ free', Accounted (freeList ++ made.map some) held (cur + made.length)
      (made.reverse ++ live) free' := by
  induction hmakes generalizing freeList cur free with
  | done | failed => exact ⟨free, by simpa using h⟩
  | @next live made t n attempts hconn hret hrest ih =>
    obtain ⟨free', hfree'⟩ := ih (h.grow hconn)
    refine ⟨free', ?_⟩
    have hlist : freeList ++ (t.conn :: made).map some =
        freeList ++ [some t.conn] ++ made.map some := by simp
    have hlive : (t.conn :: made).reverse ++ live = made.reverse ++ t.conn :: live := by simp
    have hcount : cur + ((t.conn :: made).length : ℤ) = cur + 1 + made.length := by
      rw [List.length_cons]
      push_cast
      ring
    rw [hlist, hlive, hcount]
    exact hfree'

/-- The first free connection is handed out. -/
theorem Accounted.take (h : Accounted (conn :: freeList) held cur live free) (i : ℕ) :
    ∃ a free', conn = some a ∧ Accounted freeList ((i, a) :: held) cur live free' := by
  cases free with
  | nil => exact absurd h.free_eq (List.cons_ne_nil conn freeList)
  | cons a free =>
    obtain ⟨hconn, hrest⟩ := List.cons.inj h.free_eq
    refine ⟨a, free, hconn, hrest, h.lent.lend i, ?_, fun b hb => h.live b ?_⟩
    · rw [h.count, List.length_cons, List.length_cons]
      push_cast
      ring
    · exact List.perm_middle.mem_iff.mp hb

/-- A connection comes back from its holder. -/
theorem Accounted.release (h : Accounted freeList held cur live free) (hheld : (i, a) ∈ held) :
    some a ∉ freeList ∧
      Accounted (freeList ++ [some a]) (held.erase (i, a)) cur live (free ++ [a]) := by
  refine ⟨fun hfree => ?_, ?_, h.lent.giveBack hheld, ?_, fun b hb => h.live b ?_⟩
  · rw [h.free_eq, List.mem_map] at hfree
    obtain ⟨b, hb, hab⟩ := hfree
    rw [Option.some.inj hab] at hb
    exact h.lent.not_free hheld hb
  · rw [h.free_eq, List.map_append]
    rfl
  · -- one connection fewer is held, and one more is free
    have hlength := (List.perm_cons_erase hheld).length_eq
    rw [h.count, hlength, List.length_append, List.length_singleton, List.length_cons]
    push_cast
    ring
  · rw [List.append_assoc] at hb
    exact ((perm_erase_held hheld).symm.append_left free).mem_iff.mp hb

/-- `remove` takes the connection that its holder gives back out of the used list. -/
theorem filter_used {usedList : List ConnPtr} (h : Lent free held)
    (hused : usedList.Perm (held.map fun h => some h.2)) (hheld : (i, a) ∈ held) :
    (usedList.filter (· ≠ some a)).Perm ((held.erase (i, a)).map fun h => some h.2) := by
  -- the connection stands once in the used list
  have hperm : (held.map fun h => some h.2).Perm
      (some a :: (held.erase (i, a)).map fun h => some h.2) :=
    (List.perm_cons_erase hheld).map fun h => some h.2
  have hnew : some a ∉ (held.erase (i, a)).map fun h => some h.2 := by
    have hnodup := ((perm_erase_held hheld).nodup_iff.mp h.held_nodup)
    intro hmem
    obtain ⟨q, hq, hqa⟩ := List.mem_map.mp hmem
    exact (List.nodup_cons.mp hnodup).1 (List.mem_map.mpr ⟨q, hq, Option.some.inj hqa⟩)
  -- `remove` takes out every entry of the connection, which is this one
  have hfilter := (hused.trans hperm).filter fun c => decide (c ≠ some a)
  rw [List.filter_cons_of_neg (by simp)] at hfilter
  refine hfilter.trans (List.Perm.of_eq (List.filter_eq_self.mpr fun c hc => ?_))
  exact decide_eq_true fun heq => hnew (heq ▸ hc)

/-- No connection is free twice, free and held, or held by two clients, and none is lost. -/
structure Exclusive (freeList : List ConnPtr) (held : Held) (cur : ℤ) : Prop where
  free_nodup : freeList.Nodup
  not_free : ∀ i a, (i, a) ∈ held → some a ∉ freeList
  one_holder : ∀ i j a, (i, a) ∈ held → (j, a) ∈ held → i = j
  held_nodup : (held.map Prod.snd).Nodup
  count : (freeList.length + held.length : ℤ) = cur

theorem Accounted.exclusive (h : Accounted freeList held cur live free) :
    Exclusive freeList held cur where
  free_nodup := by
    rw [h.free_eq]
    exact h.lent.free_nodup.map (Option.some_injective ℕ)
  not_free _ _ hheld := (h.release hheld).1
  one_holder _ _ _ hi hj := h.lent.holder_unique hi hj
  held_nodup := h.lent.held_nodup
  count := by rw [h.count, h.free_eq, List.length_map]

/-! ### `CDBPool` -/

namespace DB

variable {s s' : Sys} {tr evs : List Event} {pool : CDBPool} {call : Call} {t : Attempt} {k : ℕ}

/-- The connections are accounted for, and the used list has those that clients hold. -/
def Inv (s : Sys) : Prop :=
  ∀ pool, s.pool = some pool →
    (∃ free, Accounted pool.freeList s.held pool.dbCurConnCnt s.live free) ∧
      pool.usedList.Perm (s.held.map fun h => some h.2)

/-- Clients give back connections that they got and have not given back; the pool is not
destroyed. -/
def Disciplined (s : Sys) : Act → Prop
  | .rel i conn _ => ∃ a, conn = some a ∧ (i, a) ∈ s.held
  | .destroy | .finish => False
  | _ => True

/-- Two attempts do not make the same object. -/
def Answers (s : Sys) (t : Attempt) (r : Option (Sys × List Event)) : Prop :=
  (r = none ∧ t.conn ∈ s.live) ∨ ∃ s' evs, r = some (s', evs) ∧ Inv s'

theorem getNull_inv (h : Inv s) : Answers s t (getNull s i) := Or.inr ⟨_, _, rfl, h⟩

/-- A connection is handed out. -/
theorem takeFront_inv (hne : pool.freeList ≠ [])
    (hacc : Accounted pool.freeList s.held pool.dbCurConnCnt s.live free)
    (hused : pool.usedList.Perm (s.held.map fun h => some h.2)) :
    ∃ s' evs, takeFront s pool i = some (s', evs) ∧ Inv s' := by
  unfold takeFront
  cases hfree : pool.freeList with
  | nil => exact absurd hfree hne
  | cons conn freeList =>
    rw [hfree] at hacc
    obtain ⟨a, free', rfl, hacc'⟩ := hacc.take i
    refine ⟨_, _, rfl, fun pool' hpool' => ?_⟩
    obtain rfl := Option.some.inj hpool'
    exact ⟨⟨free', hacc'⟩, (List.perm_append_singleton _ _).trans (hused.cons (some a))⟩

/-- What happens in the loop of a wait. -/
theorem waitLoop_inv (h : Inv s) (hpool : s.pool = some pool) :
    ∃ s' evs, waitLoop s pool i call = some (s', evs) ∧ Inv s' := by
  obtain ⟨⟨free, hacc⟩, hused⟩ := h pool hpool
  unfold waitLoop afterWait
  split_ifs with hdone hempty habort
  · exact ⟨_, _, rfl, h⟩
  · exact ⟨_, _, rfl, h⟩
  · -- a wait that timed out has a limit, so the list was looked at
    refine takeFront_inv (fun hnil => ?_) hacc hused
    rcases hdone with hne | hab | hexpired
    · exact hne hnil
    · exact habort hab
    · exact hempty ⟨call.timed hexpired, hnil⟩
  · exact ⟨_, _, rfl, h⟩

theorem getDBConn_inv (h : Inv s) (hpool : s.pool = some pool) :
    Answers s t (getDBConn s i call t) := by
  obtain ⟨⟨free, hacc⟩, hused⟩ := h pool hpool
  unfold getDBConn
  rw [hpool]
  simp only [Option.bind_eq_bind, Option.bind_some]
  split_ifs with habort hempty hfull
  · exact getNull_inv h
  · exact Or.inr (waitLoop_inv h hpool)
  · unfold grow
    split_ifs with hlive hret
    · exact Or.inl ⟨rfl, hlive⟩
    · exact getNull_inv h
    · refine Or.inr (takeFront_inv ?_ (hacc.grow hlive) hused)
      exact List.append_ne_nil_of_right_ne_nil _ (List.cons_ne_nil _ _)
  · exact Or.inr (takeFront_inv hempty hacc hused)

/-- A connection that its holder gives back is used, and is not free. -/
theorem relDBConn_inv (h : Inv s) (hheld : (i, a) ∈ s.held)
    (hrun : relDBConn s i (some a) k = some (s', evs)) : Inv s' := by
  unfold relDBConn at hrun
  cases hpool : s.pool with
  | none =>
    rw [hpool] at hrun
    cases hrun
  | some pool =>
    obtain ⟨⟨free, hacc⟩, hused⟩ := h pool hpool
    -- the search of the free list does not find a connection that is held, so it is put back
    obtain ⟨hfree, hacc'⟩ := hacc.release hheld
    rw [← listed_iff] at hfree
    rw [hpool] at hrun
    simp only [Option.bind_eq_bind, Option.bind_some, if_neg hfree] at hrun
    obtain ⟨clients, -, heq⟩ := Option.bind_eq_some_iff.mp hrun
    obtain ⟨rfl, rfl⟩ := Prod.mk.inj (Option.some.inj heq)
    intro pool' hpool'
    obtain rfl := Option.some.inj hpool'
    exact ⟨⟨_, hacc'⟩, filter_used hacc.lent hused hheld⟩

/-- A step of a disciplined client keeps the account. -/
theorem inv_step {act : Act} (h : Inv s) (hdisc : Disciplined s act)
    (hstep : step s act = some (s', evs)) : Inv s' := by
  -- what returns keeps the account, since a step has one outcome
  have hanswers : ∀ {t : Attempt} {r : Option (Sys × List Event)}, Answers s t r →
      r = some (s', evs) → Inv s' := by
    rintro t r (⟨rfl, -⟩ | ⟨s₁, evs₁, rfl, h₁⟩) hr
    · cases hr
    · obtain ⟨rfl, -⟩ := Prod.mk.inj (Option.some.inj hr)
      exact h₁
  cases act with
  | call i timeoutMs =>
    dsimp only [step] at hstep
    split at hstep
    · obtain ⟨rfl, -⟩ := Prod.mk.inj (Option.some.inj hstep)
      exact h
    · cases hstep
  | get i t =>
    dsimp only [step] at hstep
    cases hpool : s.pool with
    | none =>
      unfold getDBConn resumeWait at hstep
      rw [hpool] at hstep
      split at hstep <;> cases hstep
    | some pool =>
      split at hstep
      · exact hanswers (getDBConn_inv h hpool) hstep
      · unfold resumeWait at hstep
        rw [hpool] at hstep
        exact hanswers (t := t) (Or.inr (waitLoop_inv h hpool)) hstep
      · cases hstep
  | timeout i =>
    dsimp only [step] at hstep
    split at hstep
    · split_ifs at hstep
      obtain ⟨rfl, -⟩ := Prod.mk.inj (Option.some.inj hstep)
      exact h
    · split_ifs at hstep
      obtain ⟨rfl, -⟩ := Prod.mk.inj (Option.some.inj hstep)
      exact h
    · cases hstep
  | spurious i =>
    dsimp only [step] at hstep
    split at hstep
    · obtain ⟨rfl, -⟩ := Prod.mk.inj (Option.some.inj hstep)
      exact h
    · cases hstep
  | rel i conn k =>
    obtain ⟨a, rfl, hheld⟩ := hdisc
    dsimp only [step] at hstep
    split at hstep
    · exact relDBConn_inv h hheld hstep
    · cases hstep
  | destroy => exact hdisc.elim
  | finish => exact hdisc.elim

/-! ### Construction -/

/-- A pool that was initialised. -/
theorem init_inv {clients : ℕ} {maxConnCnt : ℤ} {attempts : List Attempt}
    (hinit : init (create clients maxConnCnt) attempts = some (s, 0)) : Inv s := by
  unfold init at hinit
  simp only [create, Option.bind_eq_bind, Option.bind_some] at hinit
  obtain ⟨⟨pool, live, ret⟩, hloop, heq⟩ := Option.bind_eq_some_iff.mp hinit
  obtain ⟨rfl, rfl⟩ := Prod.mk.inj (Option.some.inj heq)
  have hempty : Accounted ([] : List ConnPtr) [] 0 [] [] :=
    ⟨rfl, List.nodup_nil, rfl, fun b hb => absurd hb List.not_mem_nil⟩
  obtain ⟨made, hmakes, rfl, rfl, hlength, -⟩ := initLoop_makes hloop
  obtain ⟨free', hfree'⟩ := hempty.makes hmakes
  intro pool' hpool'
  obtain rfl := Option.some.inj hpool'
  -- `Init` makes as many as the constructor has counted
  rw [hlength rfl] at hfree'
  exact ⟨⟨free', hfree'⟩, List.Perm.refl _⟩

/-- `GetDBConn` never takes a connection from an empty list: a client that has its turn goes on. -/
theorem get_ne_none (h : Inv s) (hpool : s.pool = some pool) (ht : t.conn ∉ s.live)
    (hclient : s.clients[i]? = some (.entering call) ∨ s.clients[i]? = some (.woken call)) :
    step s (.get i t) ≠ none := by
  dsimp only [step]
  rcases hclient with hclient | hclient
  · rw [hclient]
    have hanswers : Answers s t (getDBConn s i call t) := getDBConn_inv h hpool
    rcases hanswers with ⟨-, hlive⟩ | ⟨s', evs, hsome, -⟩
    · exact absurd hlive ht
    · exact Option.ne_none_iff_exists'.mpr ⟨_, hsome⟩
  · rw [hclient]
    obtain ⟨s', evs, hsome, -⟩ : ∃ s' evs, waitLoop s pool i call = some (s', evs) ∧ Inv s' :=
      waitLoop_inv h hpool
    unfold resumeWait
    rw [hpool]
    exact Option.ne_none_iff_exists'.mpr ⟨_, hsome⟩

end DB

/-! ### `CachePool` -/

namespace Cache

variable {s s' : Sys} {tr evs : List Event} {pool : CachePool} {t : Attempt} {k : ℕ}

/-- The connections are accounted for. -/
def Inv (s : Sys) : Prop := ∃ free, Accounted s.pool.freeList s.held s.pool.curConnCnt s.live free

/-- Clients give back connections that they got and have not given back. -/
def Disciplined (s : Sys) : Act → Prop
  | .rel i conn _ => ∃ a, conn = some a ∧ (i, a) ∈ s.held
  | _ => True

/-- A connection is handed out. -/
theorem takeFront_inv (hne : pool.freeList ≠ [])
    (hacc : Accounted pool.freeList s.held pool.curConnCnt s.live free) :
    ∃ s' evs, takeFront s pool i = some (s', evs) ∧ Inv s' := by
  unfold takeFront
  cases hfree : pool.freeList with
  | nil => exact absurd hfree hne
  | cons conn freeList =>
    rw [hfree] at hacc
    obtain ⟨a, free', rfl, hacc'⟩ := hacc.take i
    exact ⟨_, _, rfl, free', hacc'⟩

/-- `GetCacheConn` keeps the account, and does not take from an empty list. -/
theorem getCacheConn_inv (h : Inv s) :
    (getCacheConn s i t = none ∧ t.conn ∈ s.live) ∨
      ∃ s' evs, getCacheConn s i t = some (s', evs) ∧ Inv s' := by
  obtain ⟨free, hacc⟩ := id h
  unfold getCacheConn grow
  split_ifs with hempty hfull hlive hret
  · exact Or.inr ⟨_, _, rfl, h⟩
  · exact Or.inl ⟨rfl, hlive⟩
  · exact Or.inr ⟨_, _, rfl, h⟩
  · refine Or.inr (takeFront_inv ?_ (hacc.grow hlive))
    exact List.append_ne_nil_of_right_ne_nil _ (List.cons_ne_nil _ _)
  · exact Or.inr (takeFront_inv hempty hacc)

theorem relCacheConn_inv (h : Inv s) (hheld : (i, a) ∈ s.held)
    (hrun : relCacheConn s i (some a) k = some (s', evs)) : Inv s' := by
  obtain ⟨free, hacc⟩ := h
  obtain ⟨hfree, hacc'⟩ := hacc.release hheld
  rw [← listed_iff] at hfree
  unfold relCacheConn at hrun
  simp only [if_neg hfree, Option.bind_eq_bind] at hrun
  obtain ⟨clients, -, heq⟩ := Option.bind_eq_some_iff.mp hrun
  obtain ⟨rfl, rfl⟩ := Prod.mk.inj (Option.some.inj heq)
  exact ⟨_, hacc'⟩

/-- A step of a disciplined client keeps the account. -/
theorem inv_step {act : Act} (h : Inv s) (hdisc : Disciplined s act)
    (hstep : step s act = some (s', evs)) : Inv s' := by
  have hget : ∀ {i : ℕ} {t : Attempt}, getCacheConn s i t = some (s', evs) → Inv s' := by
    intro i t hrun
    rcases getCacheConn_inv (i := i) (t := t) h with ⟨hnone, -⟩ | ⟨s₁, evs₁, hsome, h₁⟩
    · rw [hrun] at hnone
      cases hnone
    · obtain ⟨rfl, -⟩ := Prod.mk.inj (Option.some.inj (hrun.symm.trans hsome))
      exact h₁
  cases act with
  | call i =>
    dsimp only [step] at hstep
    split at hstep
    · obtain ⟨rfl, -⟩ := Prod.mk.inj (Option.some.inj hstep)
      exact h
    · cases hstep
  | get i t =>
    dsimp only [step] at hstep
    split at hstep
    · exact hget hstep
    · exact hget hstep
    · cases hstep
  | spurious i =>
    dsimp only [step] at hstep
    split at hstep
    · obtain ⟨rfl, -⟩ := Prod.mk.inj (Option.some.inj hstep)
      exact h
    · cases hstep
  | rel i conn k =>
    obtain ⟨a, rfl, hheld⟩ := hdisc
    dsimp only [step] at hstep
    split at hstep
    · exact relCacheConn_inv h hheld hstep
    · cases hstep

/-- A pool that was initialised. -/
theorem init_inv {clients : ℕ} {maxConnCnt : ℤ} {attempts : List Attempt}
    (hinit : init (create clients maxConnCnt) attempts = some (s, 0)) : Inv s := by
  unfold init at hinit
  simp only [create, Option.bind_eq_bind] at hinit
  obtain ⟨⟨pool, live, ret⟩, hloop, heq⟩ := Option.bind_eq_some_iff.mp hinit
  obtain ⟨rfl, rfl⟩ := Prod.mk.inj (Option.some.inj heq)
  have hempty : Accounted ([] : List ConnPtr) [] 0 [] [] :=
    ⟨rfl, List.nodup_nil, rfl, fun b hb => absurd hb List.not_mem_nil⟩
  obtain ⟨made, hmakes, rfl, rfl, hlength, -⟩ := initLoop_makes hloop
  obtain ⟨free', hfree'⟩ := hempty.makes hmakes
  rw [hlength rfl] at hfree'
  exact ⟨free', hfree'⟩

end Cache

/-! ### Both pools -/

/-- **No connection is shared or lost.** After a successful `Init`, in every run of clients that
give back, once, what they got, every connection that the pool counts is free or held by one
client; the used list of `CDBPool` has those that are held. -/
theorem pools_never_share (clients : ℕ) (maxConnCnt : ℤ) (attempts : List Attempt) :
    (∀ (s₀ s : DB.Sys) (tr : List Event) (acts : List DB.Act) (pool : DB.CDBPool),
      DB.init (DB.create clients maxConnCnt) attempts = some (s₀, 0) →
      Guarded (traced DB.step) (fun st => DB.Disciplined st.1) (s₀, []) acts →
      exec (traced DB.step) (s₀, []) acts = some (s, tr) → s.pool = some pool →
      Exclusive pool.freeList s.held pool.dbCurConnCnt ∧
        pool.usedList.Perm (s.held.map fun h => some h.2)) ∧
    (∀ (s₀ s : Cache.Sys) (tr : List Event) (acts : List Cache.Act),
      Cache.init (Cache.create clients maxConnCnt) attempts = some (s₀, 0) →
      Guarded (traced Cache.step) (fun st => Cache.Disciplined st.1) (s₀, []) acts →
      exec (traced Cache.step) (s₀, []) acts = some (s, tr) →
      Exclusive s.pool.freeList s.held s.pool.curConnCnt) := by
  constructor
  · intro s₀ s tr acts pool hinit hdisc hrun hpool
    have h : DB.Inv s := by
      refine exec_invariant_of_guarded (I := fun st => DB.Inv st.1) (fun st a st' hd hi hone => ?_)
        hdisc (DB.init_inv hinit) hrun
      obtain ⟨s', evs, hstep, rfl⟩ := traced_eq_some.mp hone
      exact DB.inv_step hi hd hstep
    obtain ⟨⟨free, hacc⟩, hused⟩ := h pool hpool
    exact ⟨hacc.exclusive, hused⟩
  · intro s₀ s tr acts hinit hdisc hrun
    have h : Cache.Inv s := by
      refine exec_invariant_of_guarded (I := fun st => Cache.Inv st.1)
        (fun st a st' hd hi hone => ?_) hdisc (Cache.init_inv hinit) hrun
      obtain ⟨s', evs, hstep, rfl⟩ := traced_eq_some.mp hone
      exact Cache.inv_step hi hd hstep
    obtain ⟨free, hacc⟩ := h
    exact hacc.exclusive

/-- Two connections: client `0` has one and waits for the other, which client `1` gives back. -/
theorem pools_never_share_two : ∃ s₀ s tr pool,
    DB.init (DB.create 2 2) [⟨10, 0⟩, ⟨11, 0⟩] = some (s₀, 0) ∧
    exec (traced DB.step) (s₀, []) [.call 0 (-1), .get 0 ⟨12, 0⟩, .call 1 (-1), .get 1 ⟨12, 0⟩,
      .call 0 50, .get 0 ⟨12, 0⟩, .rel 1 (some 11) 0, .get 0 ⟨12, 0⟩] = some (s, tr) ∧
    s.pool = some pool ∧ s.held = [(0, 11), (0, 10)] ∧
    Exclusive pool.freeList s.held pool.dbCurConnCnt := by
  obtain ⟨s₀, s, tr, pool, hinit, hrun, hpool, hheld, hdisc⟩ : ∃ s₀ s tr pool,
      DB.init (DB.create 2 2) [⟨10, 0⟩, ⟨11, 0⟩] = some (s₀, 0) ∧
      exec (traced DB.step) (s₀, []) [.call 0 (-1), .get 0 ⟨12, 0⟩, .call 1 (-1), .get 1 ⟨12, 0⟩,
        .call 0 50, .get 0 ⟨12, 0⟩, .rel 1 (some 11) 0, .get 0 ⟨12, 0⟩] = some (s, tr) ∧
      s.pool = some pool ∧ s.held = [(0, 11), (0, 10)] ∧
      Guarded (traced DB.step) (fun st => DB.Disciplined st.1) (s₀, [])
        [.call 0 (-1), .get 0 ⟨12, 0⟩, .call 1 (-1), .get 1 ⟨12, 0⟩,
          .call 0 50, .get 0 ⟨12, 0⟩, .rel 1 (some 11) 0, .get 0 ⟨12, 0⟩] := by
    refine ⟨_, _, _, _, rfl, rfl, rfl, rfl, ?_⟩
    refine .cons trivial rfl (.cons trivial rfl (.cons trivial rfl (.cons trivial rfl ?_)))
    refine .cons trivial rfl (.cons trivial rfl ?_)
    exact .cons ⟨11, rfl, List.mem_cons_self⟩ rfl (.cons trivial rfl trivial)
  exact ⟨s₀, s, tr, pool, hinit, hrun, hpool, hheld,
    ((pools_never_share 2 2 _).1 s₀ s tr _ pool hinit hdisc hrun hpool).1⟩

end MmorpgServer.ConnPool
