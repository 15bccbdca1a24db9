import MmorpgServer.PagePool.Regions
import MmorpgServer.Lib.RetryWindow

/-!
# How many pages `mp_alloc` looks at

A small request that finds no room counts a failure on every page from `pool->current` to the
one before the last, and adds a page. The page after one that had failed more than four times
becomes the current one. So the pages form a window of retries with the limit `4`, whatever the
requests are: a reset keeps `current` and the counts, and nothing else touches them.

## Main definitions

* `Scans` — the regions of the pool, with the window of its chain

## Main results

* `countFailed_failed`, `countFailed_current` — the loop of `mp_alloc_block` counts like a window
* `Scans.step` — every operation keeps the window
-/

namespace MmorpgServer.PagePool

open Bump Machine RetryWindow

variable {S p : ℕ} {s s' : Sys} {pool pool' : MpPool} {pages : List MpNode} {tail : List ℕ}
  {current j k : ℕ}

def failures (pages : List MpNode) : List ℕ := pages.map (·.failed)

/-! ### The loop of `mp_alloc_block` -/

theorem countFailed_failed (pages : List MpNode) (current : ℕ) :
    failures (countFailed pages current).1 = bump (failures pages) := by
  induction pages generalizing current with
  | nil => rfl
  | cons p pages ih =>
    cases pages with
    | nil => rfl
    | cons q pages =>
      rw [countFailed]
      exact congrArg (List.cons (p.failed + 1)) (ih _)

/-- `current` becomes the first page that is not given up. -/
theorem countFailed_current (pages : List MpNode) (current : ℕ) :
    (giveUp 4 (failures pages) = 0 → (countFailed pages current).2 = current) ∧
      (giveUp 4 (failures pages) ≠ 0 →
        (pages.map (·.addr))[giveUp 4 (failures pages)]? =
          some (countFailed pages current).2) := by
  induction pages generalizing current with
  | nil => exact ⟨fun _ => rfl, fun h => absurd rfl h⟩
  | cons p pages ih =>
    cases pages with
    | nil => exact ⟨fun _ => rfl, fun h => absurd rfl h⟩
    | cons q pages =>
      obtain ⟨hstay, hmove⟩ := ih (if p.failed > 4 then q.addr else current)
      have hgive : giveUp 4 (failures (p :: q :: pages)) =
          if giveUp 4 (failures (q :: pages)) ≠ 0 then giveUp 4 (failures (q :: pages)) + 1
          else if 4 < p.failed then 1 else 0 := rfl
      rw [countFailed, hgive]
      dsimp only
      -- the last page with more than four failures decides, and `p` only if no later one does
      by_cases hg : giveUp 4 (failures (q :: pages)) = 0
      · rw [if_neg (not_not.mpr hg)]
        have hcurrent := hstay hg
        by_cases hfailed : 4 < p.failed
        · rw [if_pos hfailed]
          refine ⟨fun h => absurd h Nat.one_ne_zero, fun _ => ?_⟩
          rw [hcurrent, if_pos hfailed]
          rfl
        · rw [if_neg hfailed]
          refine ⟨fun _ => ?_, fun h => absurd rfl h⟩
          rw [hcurrent, if_neg hfailed]
      · rw [if_pos hg]
        exact ⟨fun h => absurd h (Nat.succ_ne_zero _), fun _ => hmove hg⟩

/-! ### The pages from `current` on -/

theorem beforeCurrent_mark (pool : MpPool) :
    (beforeCurrent pool).map mark = (pool.pages.map mark).takeWhile (·.1 ≠ pool.current) := by
  rw [List.takeWhile_map]
  rfl

theorem fromCurrent_mark (pool : MpPool) :
    (fromCurrent pool).map mark = (pool.pages.map mark).dropWhile (·.1 ≠ pool.current) := by
  rw [List.dropWhile_map]
  rfl

/-- A list of pages is cut at its page `j`. -/
theorem cut_at {marks : List (ℕ × ℕ)} {x : ℕ × ℕ} (hnodup : (marks.map Prod.fst).Nodup)
    (hj : marks[j]? = some x) :
    marks.takeWhile (·.1 ≠ x.1) = marks.take j ∧ marks.dropWhile (·.1 ≠ x.1) = marks.drop j := by
  obtain ⟨hlt, hget⟩ := List.getElem?_eq_some_iff.mp hj
  have hdrop : marks.drop j = x :: marks.drop (j + 1) := by
    rw [List.drop_eq_getElem_cons hlt, hget]
  have hsplit : marks.take j ++ x :: marks.drop (j + 1) = marks := by
    rw [← hdrop, List.take_append_drop]
  have hne : ∀ y ∈ marks.take j, decide (y.1 ≠ x.1) = true := by
    intro y hy
    rw [← hsplit, List.map_append, List.map_cons] at hnodup
    refine decide_eq_true fun heq => ?_
    refine List.disjoint_of_nodup_append hnodup (List.mem_map_of_mem hy) ?_
    rw [heq]
    exact List.mem_cons_self
  constructor
  · calc marks.takeWhile (·.1 ≠ x.1)
        = (marks.take j ++ x :: marks.drop (j + 1)).takeWhile (·.1 ≠ x.1) := by rw [hsplit]
      _ = marks.take j := by
        rw [List.takeWhile_append_of_pos hne, List.takeWhile_cons_of_neg (by simp),
          List.append_nil]
  · calc marks.dropWhile (·.1 ≠ x.1)
        = (marks.take j ++ x :: marks.drop (j + 1)).dropWhile (·.1 ≠ x.1) := by rw [hsplit]
      _ = marks.drop j := by
        rw [List.dropWhile_append_of_pos hne, List.dropWhile_cons_of_neg (by simp), hdrop]

/-- The regions of the pool, with the counts of its pages. -/
structure Scans (p : ℕ) (tail : List ℕ) (s : Sys) : Prop where
  regions : Regions p tail (nonnull s.pool.large) s
  head : mpAlignment ∣ p
  further : ∀ a ∈ tail, mpAlignment ∣ a
  window : Window 4 (failures (beforeCurrent s.pool)) (failures (fromCurrent s.pool))

/-- The head page does not begin where a region does. -/
theorem Scans.nodup (hregions : Regions p tail (nonnull s.pool.large) s) (hhead : mpAlignment ∣ p)
    (hfurther : ∀ a ∈ tail, mpAlignment ∣ a) : (s.pool.pages.map (·.addr)).Nodup := by
  rw [hregions.pages]
  refine List.nodup_cons.mpr ⟨fun hmem => ?_, ?_⟩
  · -- it begins behind `mp_pool_s`, whose size is no multiple of the alignment
    have hdvd := hfurther _ hmem
    unfold mpAlignment sizeofPool at *
    omega
  · exact (List.nodup_cons.mp hregions.bases_nodup.of_append_left).2

/-- The counts are those of the marks. -/
theorem failures_eq (pages : List MpNode) : failures pages = (pages.map mark).map Prod.snd := by
  rw [List.map_map]
  rfl

theorem addrs_eq (pages : List MpNode) : pages.map (·.addr) = (pages.map mark).map Prod.fst := by
  rw [List.map_map]
  rfl

/-- An operation that keeps the chain keeps the window. -/
theorem Keeps.window (h : Keeps pool pool') :
    failures (beforeCurrent pool') = failures (beforeCurrent pool) ∧
      failures (fromCurrent pool') = failures (fromCurrent pool) := by
  obtain ⟨hpages, hcurrent, -⟩ := h
  simp only [failures_eq, beforeCurrent_mark, fromCurrent_mark, hpages, hcurrent, and_self]

/-- The current page is the first one of the search. -/
theorem fromCurrent_head (h : pool.current ∈ pool.pages.map (·.addr)) :
    ((fromCurrent pool).map (·.addr))[0]? = some pool.current := by
  obtain ⟨q, hq, haddr⟩ := List.mem_map.mp h
  unfold fromCurrent
  cases hfrom : pool.pages.dropWhile fun p => decide (p.addr ≠ pool.current) with
  | nil =>
    have := List.dropWhile_eq_nil_iff.mp hfrom q hq
    simp [haddr] at this
  | cons x pages =>
    have hhead := List.head?_dropWhile_not (fun p : MpNode => decide (p.addr ≠ pool.current))
      pool.pages
    rw [hfrom] at hhead
    simpa using hhead

/-- A failed search. The pages that are given up and the others are cut where the counts say. -/
theorem Grows.window {node : ℕ} (h : Grows pool pool' node)
    (hcurrent : pool.current ∈ pool.pages.map (·.addr)) (hzero : 0 ∉ pool.pages.map (·.addr))
    (hnodup : (pool'.pages.map (·.addr)).Nodup) :
    failures (beforeCurrent pool') = failures (beforeCurrent pool) ++
        (bump (failures (fromCurrent pool)) ++ [0]).take (giveUp 4 (failures (fromCurrent pool))) ∧
      failures (fromCurrent pool') =
        (bump (failures (fromCurrent pool)) ++ [0]).drop
          (giveUp 4 (failures (fromCurrent pool))) := by
  obtain ⟨-, -, -, hpages, hnew, -⟩ := h
  set k := giveUp 4 (failures (fromCurrent pool)) with hk
  -- the new current page is page `k` of the search
  have hat : ((fromCurrent pool).map (·.addr))[k]? = some pool'.current := by
    obtain ⟨hstay, hmove⟩ := countFailed_current (fromCurrent pool) pool.current
    have hne : (countFailed (fromCurrent pool) pool.current).2 ≠ 0 := fun heq =>
      hzero (heq ▸ current_counted hcurrent)
    rw [if_neg hne] at hnew
    by_cases hk0 : k = 0
    · rw [hnew, hstay (hk ▸ hk0), hk0]
      exact fromCurrent_head hcurrent
    · rw [hnew]
      exact hmove hk0
  -- the pages of the search, with their counts
  set from' := (countFailed (fromCurrent pool) pool.current).1.map mark ++ [(node, 0)] with hfrom
  have haddrs : from'.map Prod.fst = (fromCurrent pool).map (·.addr) ++ [node] := by
    have hframe := congrArg (List.map Prod.fst)
      (countFailed_spec (fromCurrent pool) pool.current).2.1
    rw [List.map_map, List.map_map] at hframe
    rw [hfrom, List.map_append, List.map_map]
    exact congrArg (· ++ [node]) hframe
  have hcounts : from'.map Prod.snd = bump (failures (fromCurrent pool)) ++ [0] := by
    rw [hfrom, List.map_append, ← failures_eq, countFailed_failed]
    rfl
  have hmarks : pool'.pages.map mark = (beforeCurrent pool).map mark ++ from' := by
    rw [hpages, counted, List.map_append, List.append_assoc]
  obtain ⟨x, hx, hx1⟩ : ∃ x, from'[k]? = some x ∧ x.1 = pool'.current := by
    have hlt := (List.getElem?_eq_some_iff.mp hat).1
    have hfst : (from'.map Prod.fst)[k]? = some pool'.current := by
      rw [haddrs, List.getElem?_append_left hlt, hat]
    rw [List.getElem?_map] at hfst
    exact Option.map_eq_some_iff.mp hfst
  have hxat : (pool'.pages.map mark)[((beforeCurrent pool).map mark).length + k]? = some x := by
    rw [hmarks, List.getElem?_append_right (Nat.le_add_right _ _), Nat.add_sub_cancel_left, hx]
  obtain ⟨htake, hdrop⟩ := cut_at (by rwa [← addrs_eq]) hxat
  constructor
  · rw [failures_eq, beforeCurrent_mark, ← hx1, htake, hmarks, List.take_length_add_append,
      List.map_append, ← failures_eq, List.map_take, hcounts]
  · rw [failures_eq, fromCurrent_mark, ← hx1, hdrop, hmarks, List.drop_length_add_append,
      List.map_drop, hcounts]

/-! ### Runs -/

/-- Every operation keeps the window. -/
theorem Scans.step (h : Scans p tail s) (act : Act) :
    ∃ s' tail', deepStep s act = some s' ∧ Scans p tail' s' := by
  obtain ⟨s', new, hrun, h'⟩ := deepStep_regions h.regions act
  have hzero : 0 ∉ s.pool.pages.map (·.addr) := by
    rw [h.regions.pages]
    rintro (_ | ⟨_, hmem⟩)
    exact h.regions.ne_zero (List.mem_append_left _ (List.mem_cons_of_mem p hmem)) rfl
  have haddrs := h'.pages
  rcases (deepStep_moves hrun).chain with hkeeps | ⟨node, hgrows⟩
  · -- no page was added
    have hnew : new = [] := by
      rw [addrs_eq, hkeeps.1, ← addrs_eq, h.regions.pages] at haddrs
      simpa using haddrs
    rw [hnew, List.append_nil] at h'
    obtain ⟨hbefore, hfrom⟩ := hkeeps.window
    exact ⟨s', tail, hrun, h', h.head, h.further, by rw [hbefore, hfrom]; exact h.window⟩
  · have hnew : new = [node] := by
      rw [addrs_eq, hgrows.2.2.2.1, List.map_append, ← addrs_eq, counted_addr, h.regions.pages]
        at haddrs
      simpa using haddrs.symm
    have hfurther : ∀ a ∈ tail ++ new, mpAlignment ∣ a := by
      intro a ha
      rcases List.mem_append.mp ha with ha | ha
      · exact h.further a ha
      · rw [hnew, List.mem_singleton] at ha
        exact ha ▸ hgrows.2.2.1
    obtain ⟨hbefore, hfrom⟩ := hgrows.window h.regions.current hzero
      (Scans.nodup h' h.head hfurther)
    exact ⟨s', tail ++ new, hrun, h', h.head, hfurther, by rw [hbefore, hfrom]; exact h.window.grow⟩

/-- A pool that has just been created. -/
theorem create_scans {answers : List ℕ} (hcreate : mpCreatePool answers 0 S = some s) :
    ∃ p, Scans p [] s := by
  obtain ⟨p, hdvd, hregions, hlarge, hmarks, hcurrent⟩ := create_regions hcreate
  refine ⟨p, by rwa [hlarge], hdvd, fun _ ha => absurd ha List.not_mem_nil, ?_⟩
  rw [failures_eq, failures_eq, beforeCurrent_mark, fromCurrent_mark, hmarks, hcurrent]
  simpa using Window.init 4

end MmorpgServer.PagePool
