import MmorpgServer.MinHeap.Runs
import MmorpgServer.Lib.PollLoop

/-!
# Callbacks that set and delete timers

`ExpireTimer` in small steps: between the call of a callback and its return, the callback may
call `AddTimer` and `DelTimer` as often as it likes. The node stays in the heap meanwhile, and
`ExpireTimer` deletes it afterwards through the pointer `node`. This goes well unless a callback
deletes its own timer.

## Main definitions

* `Session`, `Session.step` — the heap timer, between polls or in a callback
* `Intact` — the representation invariant and the account of the timers
* `Spares` — no callback deletes its own timer

## Main results

* `exec_of_expireLoop` — the small steps are those of `ExpireTimer`
* `Survives.step` — one step
* `intact_iff_spares` — the runs that stay intact are those in which no callback deletes its own
  timer
-/

namespace MmorpgServer.MinHeap

open Machine PollLoop

variable {H : Type} {t t' : MinHeapTimer H} {held : Multiset NodePtr}
  {tr : List (Event NodePtr)} {p : NodePtr} {now : UInt32}

/-! ### The machine -/

/-- The variables `now` and `node` of `ExpireTimer` while a callback runs. -/
structure Firing where
  now : UInt32
  node : NodePtr
  deriving DecidableEq

/-- A timer object; `firing` is `none` between polls -/
structure Session (H : Type) where
  timer : MinHeapTimer H
  firing : Option Firing

/-- The calls of the program: its callbacks, or its code between polls. -/
inductive Label (H : Type) where
  | add (currentTime expire : UInt32) (cb : Option H)
  | del (id : Int32)
  /-- `ExpireTimer` is called -/
  | poll (currentTime : UInt32)
  /-- the callback returns, at once if it is `NULL` -/
  | ret

/-- The loop of `ExpireTimer` up to the call of a callback. -/
def enter (now : UInt32) (t : MinHeapTimer H) : Option (Session H × List (Event NodePtr)) :=
  if t.heap = [] then some (⟨t, none⟩, [.ended now.toNat])
  else do
    let p ← t.heap[0]?
    let n ← t.node p
    if now < n.expire then
      return (⟨t, none⟩, [.ended now.toNat])
    touch t
    return (⟨t, some ⟨now, p⟩⟩, [.fired p])

/-- The calls, with what happens to the nodes. -/
def Session.step (s : Session H) : Label H → Option (Session H × List (Event NodePtr))
  | .add currentTime expire cb =>
    (addTimer s.timer currentTime expire cb).map fun r =>
      ({ s with timer := r.1 }, [.added s.timer.fresh])
  | .del id =>
    (delTimer s.timer id).map fun r =>
      ({ s with timer := r.1 }, (s.timer.map.lookup id).toList.map .deleted)
  | .poll currentTime => enter currentTime s.timer
  | .ret => do
    let f ← s.firing
    let t ← delNode s.timer f.node
    let (s, evs) ← enter f.now t
    return (s, .removed f.node :: evs)

/-- The loop of `ExpireTimer` with callbacks that make calls is a run of the session. -/
theorem exec_of_expireLoop
    {callback : H → NodePtr → MinHeapTimer H → Option (MinHeapTimer H)}
    (hcallback : ∀ cb p t t' f tr, callback cb p t = some t' →
      ∃ calls tr', exec (traced Session.step) (⟨t, f⟩, tr) calls = some (⟨t', f⟩, tr'))
    {fuel : ℕ} {fired : List (TimerNode H)} (hne : t.heap ≠ [])
    (hloop : expireLoop callback now fuel t = some (t', fired)) :
    ∃ s evs, enter now t = some (s, evs) ∧
      ∀ tr, ∃ calls tr', exec (traced Session.step) (s, tr) calls = some (⟨t', none⟩, tr') := by
  induction fuel generalizing t fired with
  | zero => cases hloop
  | succ fuel ih =>
    rw [expireLoop] at hloop
    simp only [Option.bind_eq_bind, Option.bind_eq_some_iff] at hloop
    obtain ⟨p, hp, n, hn, hloop⟩ := hloop
    unfold enter
    simp only [if_neg hne, hp, hn, Option.bind_eq_bind, Option.bind_some]
    by_cases hdue : now < n.expire
    · rw [if_pos hdue] at hloop ⊢
      obtain ⟨rfl, -⟩ := Prod.mk.inj (Option.some.inj hloop)
      exact ⟨_, _, rfl, fun tr => ⟨[], tr, rfl⟩⟩
    · rw [if_neg hdue] at hloop ⊢
      simp only [Option.bind_eq_some_iff] at hloop
      obtain ⟨_, htouch, t₁, hinvoke, t₂, hdel, hloop⟩ := hloop
      rw [htouch]
      refine ⟨_, _, rfl, fun tr => ?_⟩
      obtain ⟨calls, tr₁, hcalls⟩ : ∃ calls tr₁, exec (traced Session.step)
          (⟨t, some ⟨now, p⟩⟩, tr) calls = some (⟨t₁, some ⟨now, p⟩⟩, tr₁) := by
        unfold invoke at hinvoke
        cases hcb : n.cb with
        | none =>
          rw [hcb] at hinvoke
          obtain rfl := Option.some.inj hinvoke
          exact ⟨[], tr, rfl⟩
        | some cb =>
          rw [hcb] at hinvoke
          exact hcallback cb p t t₁ _ tr hinvoke
      -- the callback returns, and the loop goes on with the heap that `_delNode` leaves
      obtain ⟨s, evs, henter, hrest⟩ : ∃ s evs, enter now t₂ = some (s, evs) ∧
          ∀ tr, ∃ calls tr', exec (traced Session.step) (s, tr) calls =
            some (⟨t', none⟩, tr') := by
        by_cases hempty : t₂.heap = []
        · rw [if_pos hempty] at hloop
          obtain ⟨rfl, -⟩ := Prod.mk.inj (Option.some.inj hloop)
          exact ⟨_, _, if_pos hempty, fun tr => ⟨[], tr, rfl⟩⟩
        · rw [if_neg hempty] at hloop
          obtain ⟨⟨t₃, fired'⟩, hmore, hlast⟩ := Option.bind_eq_some_iff.mp hloop
          obtain ⟨rfl, -⟩ := Prod.mk.inj (Option.some.inj hlast)
          exact ih hempty hmore
      obtain ⟨calls', tr', hcalls'⟩ := hrest (tr₁ ++ .removed p :: evs)
      refine ⟨calls ++ .ret :: calls', tr', exec_append_eq_some.mpr ⟨_, hcalls, ?_⟩⟩
      have hret : Session.step ⟨t₁, some ⟨now, p⟩⟩ .ret = some (s, .removed p :: evs) := by
        simp [Session.step, hdel, henter]
      exact (exec_traced_cons hret).mpr hcalls'

/-- A program does not call `ExpireTimer` in a callback, and `_count` does not overflow. -/
def Enabled (st : Session H × List (Event NodePtr)) : Label H → Prop
  | .add .. => st.1.timer.count.toInt + 1 < 2 ^ 31
  | .del _ => True
  | .poll _ => st.1.firing = none
  | .ret => st.1.firing ≠ none

instance (st : Session H × List (Event NodePtr)) (a : Label H) : Decidable (Enabled st a) :=
  match a with
  | .add .. => inferInstanceAs (Decidable (_ < _))
  | .del _ => inferInstanceAs (Decidable True)
  | .poll _ => inferInstanceAs (Decidable (_ = none))
  | .ret => inferInstanceAs (Decidable (_ ≠ none))

/-- A callback does not delete the timer that fires. -/
def Spares (st : Session H × List (Event NodePtr)) : Label H → Prop
  | .del id => ∀ f ∈ st.1.firing, ∀ n, st.1.timer.node f.node = some n → n.id ≠ id
  | _ => True

/-- When a poll ends, the timers that are left are not due. -/
def Drained (t : MinHeapTimer H) (tr : List (Event NodePtr)) : Prop :=
  ∀ now, tr.getLast? = some (.ended now) → ∀ p n, t.node p = some n → now < n.expire.toNat

/-- The heap order, the positions of the nodes and the map are intact; and the nodes that were
in the heap at first or were added are in the heap, or were removed because they fired, or were
deleted by a call of `DelTimer`. -/
structure Intact (held : Multiset NodePtr) (st : Session H × List (Event NodePtr)) : Prop where
  repInv : RepInv st.1.timer
  settled : Settled held st.2 (st.1.firing.map Firing.node) ↑st.1.timer.heap
  drained : Drained st.1.timer st.2

/-! ### One step -/

/-- What the calls keep as long as no callback deletes its own timer. -/
structure Survives (held : Multiset NodePtr) (st : Session H × List (Event NodePtr)) : Prop where
  valid : Valid st.1.timer
  sound : Sound held st.2 (st.1.firing.map Firing.node) ↑st.1.timer.heap
  fresh : ∀ p ∈ held + ↑(added st.2), p < st.1.timer.fresh
  drained : Drained st.1.timer st.2

theorem Survives.intact {st : Session H × List (Event NodePtr)} (h : Survives held st) :
    Intact held st :=
  ⟨h.valid.repInv, h.sound.toSettled, h.drained⟩

/-- The loop goes on, or ends with no timer due. -/
theorem survives_enter (hvalid : Valid t) (hsound : Sound held tr none ↑t.heap)
    (hfresh : ∀ p ∈ held + ↑(added tr), p < t.fresh) (now : UInt32) :
    ∃ s evs, enter now t = some (s, evs) ∧ Survives held (s, tr ++ evs) := by
  have hended : added (tr ++ [.ended now.toNat]) = added tr := by simp [added]
  have hend : (∀ p n, t.node p = some n → now.toNat < n.expire.toNat) →
      Survives held (⟨t, none⟩, tr ++ [.ended now.toNat]) := by
    intro hlate
    exact ⟨hvalid, hsound.finish _, by rw [hended]; exact hfresh, last_ended hlate⟩
  unfold enter
  by_cases hempty : t.heap = []
  · rw [if_pos hempty]
    refine ⟨_, _, rfl, hend fun p n hn => ?_⟩
    have hp := hvalid.owned p n hn
    rw [hempty] at hp
    exact absurd hp List.not_mem_nil
  · rw [if_neg hempty]
    obtain ⟨p, hp⟩ : ∃ p, t.heap[0]? = some p :=
      ⟨_, List.getElem?_eq_getElem (List.length_pos_iff.mpr hempty)⟩
    have hmem := List.mem_of_getElem? hp
    obtain ⟨n, hn, -⟩ := hvalid.node_of_mem hmem
    simp only [hp, hn, touch_eq hvalid, Option.bind_eq_bind, Option.bind_some]
    by_cases hdue : now < n.expire
    · refine ⟨_, _, by rw [if_pos hdue]; rfl, hend fun q n' hn' => ?_⟩
      have hle := UInt32.le_iff_toNat_le.mp (hvalid.root_le hp hn hn')
      exact (UInt32.lt_iff_toNat_lt.mp hdue).trans_le hle
    · have hsame : added (tr ++ [.fired p]) = added tr := by simp [added]
      refine ⟨_, _, by rw [if_neg hdue]; rfl, hvalid, hsound.fire hmem, ?_, ?_⟩
      · rw [hsame]
        exact hfresh
      · exact last_of_ne_ended fun _ => by rintro ⟨⟩

theorem Survives.add {firing : Option Firing} (h : Survives held (⟨t, firing⟩, tr))
    (hcount : t.count.toInt + 1 < 2 ^ 31) (currentTime expire : UInt32) (cb : Option H) :
    ∃ s evs, Session.step ⟨t, firing⟩ (.add currentTime expire cb) = some (s, evs) ∧
      Survives held (s, tr ++ evs) := by
  obtain ⟨hvalid, hsound, hfresh, -⟩ := h
  obtain ⟨t', hadd, hadded⟩ := addTimer_spec hvalid hcount currentTime expire cb
  have hnew : t.fresh ∉ held + ↑(added tr) := fun hin => (hfresh _ hin).ne rfl
  refine ⟨⟨t', firing⟩, [.added t.fresh], by rw [Session.step, hadd]; rfl, hadded.valid, ?_, ?_,
    last_of_ne_ended fun _ => by rintro ⟨⟩⟩
  · have hheap : (↑t'.heap : Multiset NodePtr) = t.fresh ::ₘ ↑t.heap :=
      Multiset.coe_eq_coe.mpr (hadded.heap_perm hvalid)
    change Sound held _ _ ↑t'.heap
    rw [hheap]
    exact hsound.add hnew
  · change ∀ p ∈ held + ↑(added (tr ++ [.added t.fresh])), p < t'.fresh
    rw [hadded.fresh]
    exact added_lt_succ hfresh

theorem Survives.del {firing : Option Firing} (h : Survives held (⟨t, firing⟩, tr)) {id : Int32}
    (hspares : Spares (⟨t, firing⟩, tr) (.del id)) :
    ∃ s evs, Session.step ⟨t, firing⟩ (.del id) = some (s, evs) ∧
      Survives held (s, tr ++ evs) := by
  rcases delTimer_cases h.valid id with
    ⟨hlookup, hdel, -⟩ | ⟨p, n, t', hlookup, hn, hid, hdel, hremoved⟩
  · refine ⟨⟨t, firing⟩, [], by rw [Session.step, hdel, hlookup]; rfl, ?_⟩
    rw [List.append_nil]
    exact h
  · obtain ⟨hvalid, hsound, hfresh, -⟩ := h
    refine ⟨⟨t', firing⟩, [.deleted p], by rw [Session.step, hdel, hlookup]; rfl,
      hremoved.valid, ?_, ?_, last_of_ne_ended fun _ => by rintro ⟨⟩⟩
    · have hheap : (↑t.heap : Multiset NodePtr) = p ::ₘ ↑t'.heap :=
        Multiset.coe_eq_coe.mpr (hremoved.heap_perm hvalid (hvalid.owned p n hn))
      change Sound held tr _ ↑t.heap at hsound
      rw [hheap] at hsound
      -- the callback that runs is not that of the node
      refine hsound.delete fun hfiring => ?_
      obtain ⟨f, hf, rfl⟩ := Option.map_eq_some_iff.mp hfiring
      exact hspares f hf n hn hid
    · have hsame : added (tr ++ [.deleted p]) = added tr := by simp [added]
      change ∀ q ∈ held + ↑(added (tr ++ [.deleted p])), q < t'.fresh
      rw [hsame, hremoved.fresh]
      exact hfresh

/-- A callback returns, and the loop goes on. -/
theorem Survives.ret {f : Firing} (h : Survives held (⟨t, some f⟩, tr)) :
    ∃ s evs, Session.step ⟨t, some f⟩ .ret = some (s, evs) ∧ Survives held (s, tr ++ evs) := by
  obtain ⟨hvalid, hsound, hfresh, -⟩ := h
  -- the node that fires is still in the heap
  have hmem : f.node ∈ t.heap := hsound.present f.node rfl
  obtain ⟨t', hdel, hremoved⟩ := delNode_spec hvalid hmem
  have hheap : (↑t.heap : Multiset NodePtr) = f.node ::ₘ ↑t'.heap :=
    Multiset.coe_eq_coe.mpr (hremoved.heap_perm hvalid hmem)
  have hsame : added (tr ++ [.removed f.node]) = added tr := by simp [added]
  change Sound held tr (some f.node) ↑t.heap at hsound
  rw [hheap] at hsound
  obtain ⟨s, evs, henter, h'⟩ := survives_enter hremoved.valid hsound.remove (by
    rw [hsame, hremoved.fresh]
    exact hfresh) f.now
  refine ⟨s, .removed f.node :: evs, ?_, ?_⟩
  · simp [Session.step, hdel, henter]
  · rw [List.append_assoc] at h'
    exact h'

/-- One call, in which no callback deletes its own timer. -/
theorem Survives.step {st : Session H × List (Event NodePtr)} (h : Survives held st)
    {a : Label H} (henabled : Enabled st a) (hspares : Spares st a) :
    ∃ st', traced Session.step st a = some st' ∧ Survives held st' := by
  obtain ⟨⟨t, firing⟩, tr⟩ := st
  suffices hone : ∃ s evs, Session.step ⟨t, firing⟩ a = some (s, evs) ∧
      Survives held (s, tr ++ evs) by
    obtain ⟨s, evs, hone, h'⟩ := hone
    exact ⟨_, traced_eq_some.mpr ⟨s, evs, hone, rfl⟩, h'⟩
  cases a with
  | add currentTime expire cb => exact h.add henabled currentTime expire cb
  | del id => exact h.del hspares
  | poll currentTime =>
    obtain rfl : firing = none := henabled
    exact survives_enter h.valid h.sound h.fresh currentTime
  | ret =>
    obtain ⟨f, rfl⟩ : ∃ f, firing = some f := Option.ne_none_iff_exists'.mp henabled
    exact h.ret

/-- A callback that deletes its own timer breaks the account. -/
theorem spares_of_settled {s s' : Session H} {evs : List (Event NodePtr)} {a : Label H}
    (hvalid : Valid s.timer) (hone : s.step a = some (s', evs))
    (h' : Settled held (tr ++ evs) (s'.firing.map Firing.node) ↑s'.timer.heap) :
    Spares (s, tr) a := by
  cases a with
  | del id =>
    intro f hf n hn hid
    rcases delTimer_cases hvalid id with ⟨-, -, habsent⟩ | ⟨q, n', t', hlookup, hn', hid', hdel, -⟩
    · exact habsent f.node n hn hid
    · obtain rfl := hvalid.eq_of_id hn hn' (hid'.trans hid.symm)
      rw [Session.step, hdel, hlookup] at hone
      obtain ⟨rfl, rfl⟩ := Prod.mk.inj (Option.some.inj hone)
      change Settled held (tr ++ [.deleted f.node]) (s.firing.map Firing.node) _ at h'
      rw [show s.firing = some f from hf] at h'
      exact h'.ne_of_deleted rfl
  | _ => trivial

/-! ### Runs -/

/-- Start with any heap that a program can build, and take any sequence of calls, in callbacks
and between polls. The heap stays intact and no deleted node is touched if and only if no
callback deletes its own timer. -/
theorem intact_iff_spares (count : Int32) (acts₀ : List (Act H)) (t₀ : MinHeapTimer H)
    (hcount : 0 ≤ count.toInt) (hbound : count.toInt + acts₀.countP Act.creates < 2 ^ 31)
    (hstart : exec step (MinHeapTimer.new count) acts₀ = some t₀) (acts : List (Label H))
    (henabled : Guarded (traced Session.step) Enabled (⟨t₀, none⟩, []) acts) :
    Throughout (traced Session.step) (Intact ↑t₀.heap) (⟨t₀, none⟩, []) acts ↔
      Guarded (traced Session.step) Spares (⟨t₀, none⟩, []) acts := by
  obtain ⟨t, hrun, hvalid⟩ := (valid_new (H := H) hcount).exec acts₀ hbound
  obtain rfl := Option.some.inj (hstart.symm.trans hrun)
  have hstart : Survives ↑t₀.heap (⟨t₀, none⟩, []) := by
    refine ⟨hvalid, Sound.init (Multiset.coe_nodup.mpr hvalid.linked.nodup), ?_, ?_⟩
    · intro p hp
      exact hvalid.known p (by simpa [added] using hp)
    · rintro now ⟨⟩
  refine throughout_iff_guarded (I := Survives ↑t₀.heap) (fun st a henabled hspares h _ => ?_)
    (fun st a st' _ h _ hone h' => ?_) henabled hstart hstart.intact
  · obtain ⟨st', hone, h'⟩ := h.step henabled hspares
    exact ⟨st', hone, h', h'.intact⟩
  · obtain ⟨s', evs, hcall, rfl⟩ := traced_eq_some.mp hone
    exact spares_of_settled h.valid hcall h'.settled

/-- A callback that sets a timer. -/
theorem intact_iff_spares_add :
    let acts : List (Label Unit) := [.add 0 0 (some ()), .poll 0, .add 0 5 none, .ret]
    Throughout (traced Session.step) (Intact 0) (⟨.new 0, none⟩, []) acts ↔
      Guarded (traced Session.step) Spares (⟨.new 0, none⟩, []) acts :=
  intact_iff_spares 0 [] _ (by decide) (by decide) rfl _ (by decide)

/-- A callback deletes its own timer: `ExpireTimer` deletes the node once more. -/
theorem not_intact_del :
    let acts : List (Label Unit) := [.add 0 0 (some ()), .poll 0, .del 1, .ret]
    Guarded (traced Session.step) Enabled (⟨.new 0, none⟩, []) acts ∧
      exec (traced Session.step) (⟨.new 0, none⟩, []) acts = none ∧
      ¬ Throughout (traced Session.step) (Intact 0) (⟨.new 0, none⟩, []) acts := by
  intro acts
  have hfault : exec (traced Session.step) (⟨.new 0, none⟩, []) acts = none := rfl
  refine ⟨by decide, hfault, fun h => ?_⟩
  obtain ⟨u, hu, -⟩ := h.exec
  rw [hfault] at hu
  cases hu

end MmorpgServer.MinHeap
