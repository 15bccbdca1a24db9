import Mathlib.Data.List.Basic

/-!
# A window of retries over a growing list

Something is searched for in the pages of a list from a start on. When it is found in none of
them, a failure is counted on each page of the search but the last one, a new page is appended,
and the search starts behind the last page that had failed more than `limit` times before. Only
the counts matter: they form stairs, so that the search never sees more than `limit + 3` pages.

## Main definitions

* `bump`, `giveUp` — one failure is counted, and how many pages are given up then
* `stairs` — the counts of the pages of a search
* `Window` — the counts of the pages that were given up, and of the others

## Main results

* `Window.grow` — a failed search keeps the window
* `Window.length_le`, `Window.descends` — how long a search is, and how its counts descend
* `Window.before_length` — how many pages are given up
-/

namespace MmorpgServer.RetryWindow

variable {limit w c d i : ℕ} {before window : List ℕ}

/-- Count a failure on all pages but the last one. -/
def bump : List ℕ → List ℕ
  | c :: d :: cs => (c + 1) :: bump (d :: cs)
  | cs => cs

theorem le_of_mem_bump {cs : List ℕ} {k : ℕ} (hcs : ∀ c ∈ cs, c ≤ k) (hd : d ∈ bump cs) :
    d ≤ k + 1 := by
  fun_induction bump cs with
  | case1 c c' cs ih =>
    obtain ⟨hc, hrest⟩ := List.forall_mem_cons.mp hcs
    rcases List.mem_cons.mp hd with rfl | hd
    · exact Nat.succ_le_succ hc
    · exact ih hrest hd
  | case2 cs => exact Nat.le_succ_of_le (hcs d hd)

/-- The pages up to the last one, the end of the list aside, that had failed more than `limit`
times. -/
def giveUp (limit : ℕ) : List ℕ → ℕ
  | c :: d :: cs =>
    if giveUp limit (d :: cs) ≠ 0 then giveUp limit (d :: cs) + 1 else if limit < c then 1 else 0
  | _ => 0

/-- The counts of `w` pages: the last one has not failed, and neither has the one before it. -/
def stairs : ℕ → List ℕ
  | 0 => []
  | 1 => [0]
  | w + 2 => w :: stairs (w + 1)

@[simp] theorem stairs_length (w : ℕ) : (stairs w).length = w := by
  fun_induction stairs w with
  | case1 => rfl
  | case2 => rfl
  | case3 w ih => rw [List.length_cons, ih]

theorem stairs_eq_cons (w : ℕ) : stairs (w + 1) = (w - 1) :: stairs w := by
  cases w with
  | zero => rfl
  | succ w => rfl

/-- A failed search makes the stairs one step higher. -/
theorem bump_stairs (w : ℕ) : bump (stairs (w + 1)) ++ [0] = stairs (w + 2) := by
  induction w with
  | zero => rfl
  | succ w ih =>
    rw [stairs, stairs_eq_cons w, bump, ← stairs_eq_cons w, List.cons_append, ih]
    rfl

theorem giveUp_stairs_of_le (h : w ≤ limit + 1) : giveUp limit (stairs (w + 1)) = 0 := by
  induction w with
  | zero => rfl
  | succ w ih =>
    rw [stairs, stairs_eq_cons w, giveUp, ← stairs_eq_cons w, ih (by omega), if_neg (by simp),
      if_neg (by omega)]

/-- Stairs that are one step too high lose their first page. -/
theorem giveUp_stairs_full : giveUp limit (stairs (limit + 3)) = 1 := by
  rw [stairs, stairs_eq_cons, giveUp, ← stairs_eq_cons, giveUp_stairs_of_le (Nat.le_refl _),
    if_neg (by simp), if_pos (Nat.lt_succ_self limit)]

theorem le_of_mem_stairs (h : c ∈ stairs (w + 1)) : c ≤ w := by
  induction w with
  | zero => exact Nat.le_of_eq (List.mem_singleton.mp h)
  | succ w ih =>
    rcases List.mem_cons.mp h with rfl | h
    · exact Nat.le_succ _
    · exact Nat.le_trans (ih h) (Nat.le_succ w)

theorem stairs_descends (hc : (stairs w)[i]? = some c) (hd : (stairs w)[i + 1]? = some d) :
    d < c ∨ (i + 2 = w ∧ c = 0 ∧ d = 0) := by
  fun_induction stairs w generalizing i with
  | case1 => simp at hc
  | case2 => simp at hd
  | case3 w ih =>
    cases i with
    | zero =>
      rw [stairs_eq_cons] at hd
      simp at hc hd
      omega
    | succ i =>
      rcases ih hc hd with h | ⟨h, hzero⟩
      · exact Or.inl h
      · exact Or.inr ⟨by omega, hzero⟩

/-- The counts of the pages before the search and of those that it sees. A page is given up only
when the search sees as many as it ever does. -/
structure Window (limit : ℕ) (before window : List ℕ) : Prop where
  given_up : ∀ c ∈ before, c = limit + 2
  shape : ∃ w, w ≤ limit + 2 ∧ window = stairs (w + 1)
  full : before ≠ [] → window.length = limit + 3

/-- One page that has not failed. -/
theorem Window.init (limit : ℕ) : Window limit [] [0] :=
  ⟨fun _ hc => absurd hc List.not_mem_nil, ⟨0, Nat.zero_le _, rfl⟩, fun h => absurd rfl h⟩

/-- A failed search keeps the window, with one page more. -/
theorem Window.grow (h : Window limit before window) :
    Window limit (before ++ (bump window ++ [0]).take (giveUp limit window))
      ((bump window ++ [0]).drop (giveUp limit window)) := by
  obtain ⟨w, hw, rfl⟩ := h.shape
  rw [bump_stairs]
  rcases Nat.lt_or_ge w (limit + 2) with hlt | hge
  · -- there is room for one step more
    have hnil : before = [] := by
      by_contra hne
      have := h.full hne
      rw [stairs_length] at this
      omega
    rw [giveUp_stairs_of_le (by omega), hnil]
    exact ⟨fun _ hc => absurd hc List.not_mem_nil, ⟨w + 1, hlt, rfl⟩, fun hne => absurd rfl hne⟩
  · obtain rfl : w = limit + 2 := by omega
    rw [giveUp_stairs_full, stairs_eq_cons]
    refine ⟨fun c hc => ?_, ⟨limit + 2, Nat.le_refl _, rfl⟩, fun _ => by simp⟩
    rcases List.mem_append.mp hc with hc | hc
    · exact h.given_up c hc
    · simpa using hc

/-- No page is counted on for ever. -/
theorem Window.le (h : Window limit before window) (hc : c ∈ before ++ window) : c ≤ limit + 2 := by
  rcases List.mem_append.mp hc with hc | hc
  · exact Nat.le_of_eq (h.given_up c hc)
  · obtain ⟨w, hw, rfl⟩ := h.shape
    exact Nat.le_trans (le_of_mem_stairs hc) hw

theorem Window.length_le (h : Window limit before window) : window.length ≤ limit + 3 := by
  obtain ⟨w, hw, rfl⟩ := h.shape
  simpa using hw

/-- The counts descend strictly, but for the last two pages. -/
theorem Window.descends (h : Window limit before window) (hc : window[i]? = some c)
    (hd : window[i + 1]? = some d) : d < c ∨ (i + 2 = window.length ∧ c = 0 ∧ d = 0) := by
  obtain ⟨w, -, rfl⟩ := h.shape
  rw [stairs_length]
  exact stairs_descends hc hd

/-- All pages but the last ones are given up. -/
theorem Window.before_length (h : Window limit before window) :
    before.length = (before ++ window).length - (limit + 3) := by
  have hle := h.length_le
  rw [List.length_append]
  by_cases hnil : before = []
  · rw [hnil, List.length_nil]
    omega
  · have hfull := h.full hnil
    omega

end MmorpgServer.RetryWindow
