import MmorpgServer.Redis.Reader
import MmorpgServer.Lib.RespGrammar

/-!
# The parser reads the protocol

The parser of `read.c` takes the steps of a reader of the protocol, as long as the buffer is not
so long that its positions are no `int`s.

## Main definitions

* `object` — a value as a reply object
* `Sim` — the parser stands where the reader stands

## Main results

* `string2ll_eq_some` — the numbers that are read are those that were printed
-/

namespace MmorpgServer.Redis

open Decimal

/-! ### Numbers -/

theorem isDigit_iff {b : UInt8} : byte '0' ≤ b ∧ b ≤ byte '9' ↔ IsDigit b := by
  unfold IsDigit
  rw [UInt8.le_iff_toNat_le, UInt8.le_iff_toNat_le]
  exact Iff.rfl

theorem toNat_sub_zero {b : UInt8} (h : IsDigit b) : (b - byte '0').toNat = b.toNat - 48 := by
  have hle : byte '0' ≤ b := UInt8.le_iff_toNat_le.mpr h.1
  rw [UInt8.toNat_sub_of_le _ _ hle]
  rfl

/-- The loop reads digits as long as the number fits into 64 bits. -/
theorem string2llLoop_eq_some {p : Bytes} : ∀ {v w : ℕ}, v < 2 ^ 64 →
    (string2llLoop v p = some w ↔ (∀ b ∈ p, IsDigit b) ∧ w = valueFrom v p ∧ w < 2 ^ 64) := by
  induction p with
  | nil =>
    intro v w hv
    rw [string2llLoop, valueFrom_nil, Option.some.injEq]
    constructor
    · rintro rfl
      exact ⟨by simp, rfl, hv⟩
    · rintro ⟨-, rfl, -⟩
      rfl
  | cons b p ih =>
    intro v w hv
    rw [string2llLoop, valueFrom_cons, List.forall_mem_cons]
    by_cases hb : IsDigit b
    · rw [if_pos (isDigit_iff.mpr hb), toNat_sub_zero hb]
      have hle : v * 10 + (b.toNat - 48) ≤ valueFrom (v * 10 + (b.toNat - 48)) p := le_valueFrom
      have hnine : b.toNat ≤ 57 := hb.2
      by_cases hmul : v > (2 ^ 64 - 1) / 10
      · rw [if_pos hmul]
        exact iff_of_false (by simp) (by rintro ⟨-, rfl, hw⟩; omega)
      · rw [if_neg hmul]
        by_cases hadd : v * 10 > 2 ^ 64 - 1 - (b.toNat - 48)
        · rw [if_pos hadd]
          exact iff_of_false (by simp) (by rintro ⟨-, rfl, hw⟩; omega)
        · rw [if_neg hadd, ih (by omega), and_iff_right hb]
    · rw [if_neg (fun h => hb (isDigit_iff.mp h))]
      exact iff_of_false (by simp) (fun h => hb h.1.1)

theorem printInt_neg {n : ℕ} (h : 0 < n) : printInt (-(n : ℤ)) = 45 :: print n := by
  obtain ⟨m, rfl⟩ := Nat.exists_eq_add_of_le' h
  rfl

/-- The first digit of a number that is not zero -/
theorem print_eq_cons {n : ℕ} (h : 0 < n) : ∃ c q, print n = c :: q ∧
    (byte '1' ≤ c ∧ c ≤ byte '9') ∧ (∀ b ∈ q, IsDigit b) ∧
    valueFrom (c - byte '0').toNat q = n := by
  cases hprint : print n with
  | nil => exact absurd hprint print_ne_nil
  | cons c q =>
    have hdigits := isDigit_of_mem_print n
    rw [hprint, List.forall_mem_cons] at hdigits
    obtain ⟨hc, hq⟩ := hdigits
    have hzero : c ≠ digit 0 := by
      rintro rfl
      exact absurd (head?_print n (by rw [hprint]; rfl)) (by omega)
    have hvalue := value_print n
    rw [hprint, value, valueFrom_cons, Nat.zero_mul, Nat.zero_add] at hvalue
    refine ⟨c, q, rfl, ⟨?_, (isDigit_iff.mpr hc).2⟩, hq, by rw [toNat_sub_zero hc, hvalue]⟩
    rw [UInt8.le_iff_toNat_le]
    have hne : c.toNat ≠ 48 := fun heq => hzero (UInt8.toNat_inj.mp heq)
    have hlow := hc.1
    show 49 ≤ c.toNat
    omega

/-- A digit that is not zero, and digits behind it, are the print of a number. -/
theorem print_of_cons {c : UInt8} {q : Bytes} (hc : byte '1' ≤ c ∧ c ≤ byte '9')
    (hq : ∀ b ∈ q, IsDigit b) :
    print (valueFrom (c - byte '0').toNat q) = c :: q ∧ 0 < valueFrom (c - byte '0').toNat q := by
  have hlow : 49 ≤ c.toNat := UInt8.le_iff_toNat_le.mp hc.1
  have hdigit : IsDigit c := ⟨by omega, UInt8.le_iff_toNat_le.mp hc.2⟩
  have hzero : c ≠ digit 0 := by
    rintro rfl
    exact absurd hlow (by decide)
  have hprint := print_value hzero (l := q) (List.forall_mem_cons.mpr ⟨hdigit, hq⟩)
  rw [value, valueFrom_cons, Nat.zero_mul, Nat.zero_add] at hprint
  rw [toNat_sub_zero hdigit]
  exact ⟨hprint, lt_of_lt_of_le (by omega) le_valueFrom⟩

/-- What is printed is read. -/
theorem string2ll_printInt {n : ℤ} (hlow : -2 ^ 63 ≤ n) (hhigh : n < 2 ^ 63) :
    string2ll (printInt n) = some (Int64.ofInt n) := by
  rcases lt_trichotomy n 0 with hneg | rfl | hpos
  · obtain ⟨m, rfl⟩ := Int.exists_eq_neg_ofNat hneg.le
    obtain ⟨c, q, hprint, hc, hq, hvalue⟩ := print_eq_cons (n := m) (by omega)
    have hloop := (string2llLoop_eq_some (p := q) (v := (c - byte '0').toNat)
      (lt_trans (UInt8.toNat_lt _) (by decide))).mpr ⟨hq, hvalue.symm, by omega⟩
    rw [printInt_neg (by omega), hprint, string2ll, if_neg (by simp)]
    simp only [show ((45 : UInt8) = byte '-') = True from by decide, if_true, if_pos hc, hloop,
      Option.bind_some]
    exact if_neg (by omega)
  · decide +kernel
  · obtain ⟨m, rfl⟩ := Int.eq_ofNat_of_zero_le hpos.le
    obtain ⟨c, q, hprint, hc, hq, hvalue⟩ := print_eq_cons (n := m) (by omega)
    have hloop := (string2llLoop_eq_some (p := q) (v := (c - byte '0').toNat)
      (lt_trans (UInt8.toNat_lt _) (by decide))).mpr ⟨hq, hvalue.symm, by omega⟩
    have hone := UInt8.le_iff_toNat_le.mp hc.1
    have hsign : c ≠ byte '-' := by
      rintro rfl
      exact absurd hone (by decide)
    have hnotzero : ¬ (q = [] ∧ c = byte '0') := by
      rintro ⟨-, rfl⟩
      exact absurd hone (by decide)
    rw [show printInt (m : ℤ) = print m from rfl, hprint, string2ll, if_neg hnotzero]
    simp only [if_neg hsign, if_pos hc, hloop, Option.bind_some]
    exact if_neg (by omega)

/-- What is read was printed: there is one string for each number that is read. -/
theorem string2ll_eq_some {s : Bytes} {v : Int64} :
    string2ll s = some v ↔ s = printInt v.toInt := by
  constructor
  · intro h
    unfold string2ll at h
    split at h
    · exact absurd h (by simp)
    · next b p =>
      split at h
      · next hzero =>
        obtain ⟨rfl, rfl⟩ := hzero
        obtain rfl := Option.some.inj h
        decide +kernel
      · dsimp only at h
        split at h
        · exact absurd h (by simp)
        · next c q hcq =>
          split at h
          · next hc =>
            obtain ⟨w, hloop, hrange⟩ := Option.bind_eq_some_iff.mp h
            obtain ⟨hq, rfl, -⟩ := (string2llLoop_eq_some
              (lt_trans (UInt8.toNat_lt _) (by decide))).mp hloop
            obtain ⟨hprint, hpos⟩ := print_of_cons hc hq
            split at hrange
            · next hsign =>
              rw [if_pos hsign] at hcq
              split at hrange
              · exact absurd hrange (by simp)
              · obtain rfl := Option.some.inj hrange
                rw [Int64.toInt_ofInt_of_le (by omega) (by omega), printInt_neg hpos, hprint, hcq,
                  hsign]
                rfl
            · next hsign =>
              rw [if_neg hsign] at hcq
              split at hrange
              · exact absurd hrange (by simp)
              · obtain rfl := Option.some.inj hrange
                rw [Int64.toInt_ofInt_of_le (by omega) (by omega), hcq, ← hprint]
                rfl
          · exact absurd h (by simp)
  · rintro rfl
    rw [string2ll_printInt (Int64.le_toInt v) (Int64.toInt_lt v), Int64.ofInt_toInt]

/-- The parser reads the numbers that a reader of the protocol reads. -/
theorem string2ll_eq (s : Bytes) : string2ll s = (Resp.readInt s).map Int64.ofInt := by
  cases hread : Resp.readInt s with
  | some n =>
    obtain ⟨rfl, hlow, hhigh⟩ := Resp.readInt_eq_some hread
    exact string2ll_printInt hlow hhigh
  | none =>
    cases hll : string2ll s with
    | none => rfl
    | some v =>
      obtain rfl := string2ll_eq_some.mp hll
      rw [Resp.readInt_printInt (Int64.le_toInt v) (Int64.toInt_lt v)] at hread
      exact absurd hread (by simp)

/-! ### Lines -/

theorem seekFrom_eq {len : ℤ} : ∀ {s : Bytes} {pos : ℤ}, pos + s.length - 1 ≤ len →
    seekFrom pos len s = (Resp.splitLine s).map fun p => pos + p.1.length
  | [], _, _ => rfl
  | [_], _, _ => rfl
  | a :: b :: s, pos, h => by
    simp only [List.length_cons] at h
    have hcrlf : byte '\r' = 13 ∧ byte '\n' = 10 := ⟨rfl, rfl⟩
    rw [seekFrom, Resp.splitLine, if_pos (by omega), hcrlf.1, hcrlf.2]
    by_cases hbreak : a = 13 ∧ b = 10
    · rw [if_pos hbreak, if_pos hbreak]
      simp
    · rw [if_neg hbreak, if_neg hbreak, seekFrom_eq (by simp only [List.length_cons]; omega),
        Option.map_map]
      refine congrArg (fun f => Option.map f _) (funext fun p => ?_)
      simp only [Function.comp_apply, List.length_cons]
      omega

/-- In a buffer of less than 2 GiB the first line break is found. -/
theorem seekNewline_eq {s : Bytes} (h : s.length < 2 ^ 31) :
    seekNewline s = (Resp.splitLine s).map fun p => (p.1.length : ℤ) := by
  have hlen : toInt ((s.length : ℤ) - 1) = s.length - 1 := toInt_of_lt (by omega) (by omega)
  unfold seekNewline
  rw [hlen, seekFrom_eq (by omega)]
  simp

/-! ### Objects -/

mutual

/-- A value as a reply object -/
def object : Resp.Value → ReplyObject
  | .status t => .string .status t
  | .error t => .string .error t
  | .integer n => .integer (Int64.ofInt n)
  | .bulk t => .string .string t
  | .array items => .array (objects items)
  | .nil => .nil

def objects : List Resp.Value → List (Option ReplyObject)
  | [] => []
  | v :: vs => some (object v) :: objects vs

end

theorem objects_eq (vs : List Resp.Value) : objects vs = vs.map fun v => some (object v) := by
  induction vs with
  | nil => rfl
  | cons v vs ih => rw [objects, ih, List.map_cons]

@[simp] theorem length_objects (vs : List Resp.Value) : (objects vs).length = vs.length := by
  rw [objects_eq, List.length_map]

/-- The reply with an object at the place that is read now; what comes later is not there. -/
def plug : List Resp.Frame → Option ReplyObject → Option ReplyObject
  | [], obj => obj
  | f :: stack, obj =>
    plug stack (some (.array (objects f.items ++ obj :: List.replicate f.left none)))

theorem modify_middle {α : Type*} {f : α → α} {x : α} {l' : List α} :
    ∀ l : List α, (l ++ x :: l').modify l.length f = l ++ f x :: l'
  | [] => rfl
  | y :: l => congrArg (y :: ·) (modify_middle l)

theorem attach_cons {obj inner : ReplyObject} {f : Resp.Frame} {i : ℕ} {path : List ℕ} :
    obj.attach (f.items.length :: i :: path)
        (.array (objects f.items ++ some inner :: List.replicate f.left none)) =
      .array (objects f.items ++ some (obj.attach (i :: path) inner) ::
        List.replicate f.left none) := by
  have hmodify := @modify_middle _ (Option.map (obj.attach (i :: path))) (some inner)
    (List.replicate f.left none) (objects f.items)
  rw [length_objects] at hmodify
  rw [ReplyObject.attach, hmodify]
  · rfl
  · simp

theorem attach_singleton {obj : ReplyObject} {f : Resp.Frame} :
    obj.attach [f.items.length]
        (.array (objects f.items ++ none :: List.replicate f.left none)) =
      .array (objects f.items ++ some obj :: List.replicate f.left none) := by
  rw [ReplyObject.attach, List.set_append_right _ _ (by simp)]
  simp

/-- The indices that lead to the place that is read now -/
def places (stack : List Resp.Frame) : List ℕ := (stack.map fun f => f.items.length).reverse

theorem attach_places {obj : ReplyObject} (stack : List Resp.Frame) :
    ∀ (i : ℕ) (path : List ℕ) (inner : ReplyObject),
      (plug stack (some inner)).map (obj.attach (places stack ++ i :: path)) =
        plug stack (some (obj.attach (i :: path) inner)) := by
  induction stack with
  | nil => intro i path inner; rfl
  | cons f stack ih =>
    intro i path inner
    have hplaces : places (f :: stack) ++ i :: path =
        places stack ++ f.items.length :: i :: path := by
      unfold places
      rw [List.map_cons, List.reverse_cons, List.append_assoc]
      rfl
    rw [plug, plug, hplaces, ih, attach_cons]

/-- An object is put at the place that is read now. -/
theorem attach_plug {obj : ReplyObject} {stack : List Resp.Frame} (h : stack ≠ []) :
    (plug stack none).map (obj.attach (places stack)) = plug stack (some obj) := by
  cases stack with
  | nil => exact absurd rfl h
  | cons f stack =>
    have hplaces : places (f :: stack) = places stack ++ [f.items.length] := by
      unfold places
      rw [List.map_cons, List.reverse_cons]
    rw [plug, plug, hplaces, attach_places, attach_singleton]

end MmorpgServer.Redis
