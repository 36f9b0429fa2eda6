import Lmosem.Clib.Ctype
import Lmosem.Hal.Types
import Lmosem.Lib.CString
import Mathlib.Data.List.Infix
import Mathlib.Tactic.SplitIfs

-- The functions that measure, compare and search strings.
namespace Lmosem

open Memory

def strlenLoop (mem : Mem 32) : ℕ → Adr → Outcome Adr
  | 0, _ => .hang
  | fuel + 1, sc => if mem sc ≠ 0 then strlenLoop mem fuel (sc + 1) else .ok sc

-- A scan that has been through the whole memory does not end.
def strlen (mem : Mem 32) (s : Adr) : Outcome SizeT := do
  let sc ← strlenLoop mem (2 ^ 32) s
  .ok (sc - s)

-- Leaves with `__res`, a `signed char`.
def strcmpLoop (mem : Mem 32) : ℕ → Adr → Adr → Outcome Byte
  | 0, _, _ => .hang
  | fuel + 1, cs, ct =>
      let res := mem cs - mem ct
      if res ≠ 0 ∨ mem cs = 0 then .ok res else strcmpLoop mem fuel (cs + 1) (ct + 1)

def strcmp (mem : Mem 32) (cs ct : Adr) : Outcome U32 := do
  let res ← strcmpLoop mem (2 ^ 32) cs ct
  .ok (res.signExtend 32)

def strncmpLoop (mem : Mem 32) : ℕ → Adr → Adr → Byte → Byte
  | 0, _, _, res => res
  | count + 1, cs, ct, _ =>
      let res := mem cs - mem ct
      if res ≠ 0 ∨ mem cs = 0 then res else strncmpLoop mem count (cs + 1) (ct + 1) res

def strncmp (mem : Mem 32) (cs ct : Adr) (count : SizeT) : U32 :=
  (strncmpLoop mem count.toNat cs ct 0).signExtend 32

def memcmpLoop (mem : Mem 32) : ℕ → Adr → Adr → U32 → U32
  | 0, _, _, res => res
  | count + 1, su1, su2, _ =>
      let res : U32 := (mem su1).setWidth 32 - (mem su2).setWidth 32
      if res ≠ 0 then res else memcmpLoop mem count (su1 + 1) (su2 + 1) res

def memcmp (mem : Mem 32) (cs ct : Adr) (count : SizeT) : U32 :=
  memcmpLoop mem count.toNat cs ct 0

-- `l1` and `l2` are of type `int`. At most `fuel` turns are made.
def strstrLoop (mem : Mem 32) (s2 : Adr) (l2 : U32) : ℕ → U32 → Adr → Outcome Adr
  | 0, _, _ => .hang
  | fuel + 1, l1, s1 =>
      if l2.sle l1 then
        if memcmp mem s1 s2 l2 = 0 then .ok s1 else strstrLoop mem s2 l2 fuel (l1 - 1) (s1 + 1)
      else .ok NULL

def strstr (mem : Mem 32) (s1 s2 : Adr) : Outcome Adr := do
  let l2 ← strlen mem s2
  if l2 = 0 then .ok s1
  else do
    let l1 ← strlen mem s1
    strstrLoop mem s2 l2 (2 ^ 32) l1 s1

section Length

variable {mem : Mem 32} {s p : Adr} {text : List Byte} {fuel : ℕ}

theorem strlenLoop_eq (h : Holds mem p text) (hfuel : text.length < fuel) :
    strlenLoop mem fuel p = .ok (p + BitVec.ofNat 32 text.length) := by
  induction h generalizing fuel with
  | nil hend =>
      obtain ⟨fuel, rfl⟩ : ∃ k, fuel = k + 1 := ⟨fuel - 1, by omega⟩
      rw [strlenLoop, if_neg (not_not.mpr hend)]
      simp
  | @cons p c text hc hne _ ih =>
      obtain ⟨fuel, rfl⟩ : ∃ k, fuel = k + 1 := ⟨fuel - 1, by omega⟩
      rw [strlenLoop, if_pos (hc ▸ hne), List.length_cons, add_ofNat_succ]
      exact ih (by simpa using hfuel)

theorem strlen_eq (h : Holds mem s text) : strlen mem s = .ok (BitVec.ofNat 32 text.length) := by
  rw [strlen, strlenLoop_eq h h.length_lt, Outcome.ok_bind, BitVec.add_comm, BitVec.add_sub_cancel]

end Length

-- `abab` is at 0 and `b` at 5, and the bytes 0xff and 1 are at 7 and 9.
def someStrings : Mem 32 := fun a =>
  [char 'a', char 'b', char 'a', char 'b', 0, char 'b', 0, 0xff, 0, 1, 0].getD a.toNat 0

section Order

variable {mem : Mem 32} {cs ct p q : Adr} {xs ys : List Byte} {fuel : ℕ}

-- What the first characters that differ are apart, with the zero at the end as one of them.
def firstDiff : List Byte → List Byte → ℤ
  | [], [] => 0
  | [], y :: _ => -y.toNat
  | x :: _, [] => x.toNat
  | x :: xs, y :: ys => if x = y then firstDiff xs ys else x.toNat - y.toNat

theorem firstDiff_bound (xs ys : List Byte) : -256 < firstDiff xs ys ∧ firstDiff xs ys < 256 := by
  induction xs, ys using firstDiff.induct with
  | case1 => decide
  | case2 y _ =>
      have := y.isLt
      rw [firstDiff]
      omega
  | case3 x _ =>
      have := x.isLt
      rw [firstDiff]
      omega
  | case4 x xs ys ih =>
      rw [firstDiff, if_pos rfl]
      exact ih
  | case5 x xs y ys hne =>
      have hx := x.isLt
      have hy := y.isLt
      rw [firstDiff, if_neg hne]
      omega

-- Its sign is the order of the texts.
theorem firstDiff_sign (hxs : ∀ c ∈ xs, c ≠ 0) (hys : ∀ c ∈ ys, c ≠ 0) :
    (firstDiff xs ys = 0 ↔ xs = ys) ∧ (firstDiff xs ys < 0 ↔ xs < ys) := by
  have hpos {c : Byte} (hc : c ≠ 0) : 0 < c.toNat := Nat.pos_of_ne_zero fun h =>
    hc (BitVec.eq_of_toNat_eq h)
  induction xs, ys using firstDiff.induct with
  | case1 => simp [firstDiff]
  | case2 y ys =>
      have := hpos (List.forall_mem_cons.mp hys).1
      rw [firstDiff]
      simp
      omega
  | case3 x xs =>
      have := hpos (List.forall_mem_cons.mp hxs).1
      rw [firstDiff]
      simp
      omega
  | case4 x xs ys ih =>
      obtain ⟨hzero, hneg⟩ := ih (List.forall_mem_cons.mp hxs).2 (List.forall_mem_cons.mp hys).2
      rw [firstDiff, if_pos rfl, List.cons_lt_cons_iff, hzero, hneg]
      simp [BitVec.lt_irrefl]
  | case5 x xs y ys hne =>
      have hne' : x.toNat ≠ y.toNat := fun h => hne (BitVec.eq_of_toNat_eq h)
      rw [firstDiff, if_neg hne, List.cons_lt_cons_iff, BitVec.lt_def]
      simp only [List.cons.injEq, hne, false_and, or_false, iff_false]
      omega

theorem sub_eq_ofInt (x y : Byte) : x - y = BitVec.ofInt 8 (x.toNat - y.toNat) := by
  apply BitVec.eq_of_toNat_eq
  have hx := x.isLt
  have hy := y.isLt
  rw [BitVec.toNat_sub, BitVec.toNat_ofInt]
  omega

theorem strcmpLoop_eq (hs : Holds mem p xs) (ht : Holds mem q ys) (hfuel : xs.length < fuel) :
    strcmpLoop mem fuel p q = .ok (BitVec.ofInt 8 (firstDiff xs ys)) := by
  induction hs generalizing q ys fuel with
  | nil hp =>
      obtain ⟨fuel, rfl⟩ : ∃ k, fuel = k + 1 := ⟨fuel - 1, by omega⟩
      rw [strcmpLoop, if_pos (Or.inr hp), hp, sub_eq_ofInt]
      cases ht with
      | nil hq => rw [hq]; rfl
      | cons hq _ _ => rw [hq, firstDiff]; simp
  | @cons p x xs hp hne _ ih =>
      obtain ⟨fuel, rfl⟩ : ∃ k, fuel = k + 1 := ⟨fuel - 1, by omega⟩
      rw [strcmpLoop, hp]
      cases ht with
      | nil hq =>
          rw [hq, if_pos (Or.inl (sub_ne_zero_of_ne hne)), sub_eq_ofInt, firstDiff]
          simp
      | @cons _ y ys hq _ htail =>
          rw [hq, firstDiff]
          by_cases hxy : x = y
          · have hgo : ¬(0#8 ≠ 0 ∨ y = 0) := not_or.mpr ⟨not_not.mpr rfl, hxy ▸ hne⟩
            rw [hxy, BitVec.sub_self, if_pos rfl, if_neg hgo]
            exact ih htail (by simpa using hfuel)
          · rw [if_pos (Or.inl (sub_ne_zero_of_ne hxy)), if_neg hxy, sub_eq_ofInt]

theorem strncmpLoop_eq (hs : Holds mem p xs) (ht : Holds mem q ys) (count : ℕ) :
    strncmpLoop mem count p q 0 = BitVec.ofInt 8 (firstDiff (xs.take count) (ys.take count)) := by
  induction count generalizing p q xs ys with
  | zero => simp [strncmpLoop, firstDiff]
  | succ count ih =>
      rw [strncmpLoop]
      cases hs with
      | nil hp =>
          rw [if_pos (Or.inr hp), hp, sub_eq_ofInt]
          cases ht with
          | nil hq => rw [hq]; rfl
          | cons hq _ _ => rw [hq, List.take_nil, List.take_succ_cons, firstDiff]; simp
      | @cons _ x xs hp hne hstail =>
          rw [hp]
          cases ht with
          | nil hq =>
              rw [hq, if_pos (Or.inl (sub_ne_zero_of_ne hne)), sub_eq_ofInt, List.take_nil,
                List.take_succ_cons, firstDiff]
              simp
          | @cons _ y ys hq _ htail =>
              rw [hq, List.take_succ_cons, List.take_succ_cons, firstDiff]
              by_cases hxy : x = y
              · have hgo : ¬(0#8 ≠ 0 ∨ y = 0) := not_or.mpr ⟨not_not.mpr rfl, hxy ▸ hne⟩
                rw [hxy, BitVec.sub_self, if_pos rfl, if_neg hgo]
                exact ih hstail htail
              · rw [if_pos (Or.inl (sub_ne_zero_of_ne hxy)), if_neg hxy, sub_eq_ofInt]

-- A comparison tells texts that differ from such that do not. Its sign is their order exactly
-- where a `signed char` holds what they are apart.
def Orders (r : U32) (xs ys : List Byte) : Prop :=
  (r = 0 ↔ xs = ys) ∧
    ((r.toInt < 0 ↔ xs < ys) ↔ -128 ≤ firstDiff xs ys ∧ firstDiff xs ys < 128)

theorem orders_signExtend (hxs : ∀ c ∈ xs, c ≠ 0) (hys : ∀ c ∈ ys, c ≠ 0) :
    Orders ((BitVec.ofInt 8 (firstDiff xs ys)).signExtend 32) xs ys := by
  obtain ⟨hzero, hneg⟩ := firstDiff_sign hxs hys
  have hbound := firstDiff_bound xs ys
  have hval : ((BitVec.ofInt 8 (firstDiff xs ys)).signExtend 32).toInt =
      (firstDiff xs ys).bmod 256 := by
    rw [BitVec.toInt_signExtend_of_le (by decide), BitVec.toInt_ofInt]
  have hnull : (BitVec.ofInt 8 (firstDiff xs ys)).signExtend 32 = 0 ↔
      ((BitVec.ofInt 8 (firstDiff xs ys)).signExtend 32).toInt = 0 :=
    ⟨fun h => by rw [h]; rfl, fun h => BitVec.eq_of_toInt_eq h⟩
  rw [Orders, hnull, hval, ← hzero, ← hneg, Int.bmod]
  split_ifs <;> omega

theorem strcmp_orders (hs : Holds mem cs xs) (ht : Holds mem ct ys) :
    (∃ r, strcmp mem cs ct = .ok r ∧ Orders r xs ys) ∧
      ∀ count, Orders (strncmp mem cs ct count) (xs.take count.toNat) (ys.take count.toNat) := by
  constructor
  · refine ⟨_, ?_, orders_signExtend hs.ne_zero ht.ne_zero⟩
    rw [strcmp, strcmpLoop_eq hs ht hs.length_lt, Outcome.ok_bind]
  · intro count
    rw [strncmp, strncmpLoop_eq hs ht]
    exact orders_signExtend (fun c hc => hs.ne_zero c (List.mem_of_mem_take hc))
      fun c hc => ht.ne_zero c (List.mem_of_mem_take hc)

-- The byte 0xff is more than 1, and the answer is negative.
theorem strcmp_orders_ff : ∃ r, strcmp someStrings 7 9 = .ok r ∧ r ≠ 0 ∧
    ¬(r.toInt < 0 ↔ ([0xff] : List Byte) < [1]) := by
  have hff : Holds someStrings 7 [0xff] := .cons rfl (by decide) (.nil rfl)
  have hone : Holds someStrings 9 [1] := .cons rfl (by decide) (.nil rfl)
  obtain ⟨⟨r, hr, hzero, hsign⟩, -⟩ := strcmp_orders hff hone
  exact ⟨r, hr, hzero.not.mpr (by decide), fun h => absurd (hsign.mp h).2 (by decide)⟩

end Order

section Search

variable {mem : Mem 32} {s1 s2 p q : Adr} {xs ys : List Byte} {fuel : ℕ}

-- A zero in the memory ends the comparison before the text that is searched for does.
theorem memcmpLoop_zero_iff (hq : Holds mem q ys) (hp : Holds mem p xs) :
    memcmpLoop mem ys.length p q 0 = 0 ↔ ys <+: xs := by
  have hext {x y : Byte} (h : x ≠ y) : x.setWidth 32 - y.setWidth 32 ≠ 0 := by
    intro hsub
    have hx := x.isLt
    have hy := y.isLt
    have hval := congrArg BitVec.toNat hsub
    have hzero : (0 : U32).toNat = 0 := rfl
    rw [BitVec.toNat_sub, BitVec.toNat_setWidth, BitVec.toNat_setWidth, hzero] at hval
    exact h (BitVec.eq_of_toNat_eq (by omega))
  induction hq generalizing p xs with
  | nil _ => simp [memcmpLoop]
  | @cons q y ys hc hne _ ih =>
      rw [List.length_cons, memcmpLoop, hc]
      cases hp with
      | nil hend =>
          rw [hend, if_pos (hext hne.symm)]
          simpa using hext hne.symm
      | @cons _ x xs hx _ htail =>
          rw [hx, List.cons_prefix_cons]
          by_cases hxy : x = y
          · have hgo : ¬0#32 ≠ 0 := not_not.mpr rfl
            rw [hxy, BitVec.sub_self, if_neg hgo, and_iff_right rfl]
            exact ih htail
          · rw [if_pos (hext hxy)]
            exact iff_of_false (hext hxy) fun h => hxy h.1.symm

-- The first place in `xs` where `ys` stands, seen from `p`.
def FirstAt (p : Adr) (xs ys : List Byte) (r : Adr) : Prop :=
  (∃ i, r = p + BitVec.ofNat 32 i ∧ ys <+: xs.drop i ∧ ∀ j < i, ¬ys <+: xs.drop j) ∨
    r = NULL ∧ ∀ j, ¬ys <+: xs.drop j

-- By induction on the text. The rest of it gets shorter than what is searched for in the end.
theorem strstrLoop_first (hq : Holds mem q ys) (hne : ys ≠ []) (hys : ys.length < 2 ^ 31)
    (hp : Holds mem p xs) (hxs : xs.length < 2 ^ 31) (hfuel : xs.length < fuel) :
    ∃ r, strstrLoop mem q (BitVec.ofNat 32 ys.length) fuel (BitVec.ofNat 32 xs.length) p = .ok r ∧
      FirstAt p xs ys r := by
  have hint {n : ℕ} (hn : n < 2 ^ 31) : (BitVec.ofNat 32 n).toInt = n := by
    rw [BitVec.toInt_eq_toNat_bmod, BitVec.toNat_ofNat, Int.bmod]
    split_ifs <;> omega
  have hnat : (BitVec.ofNat 32 ys.length).toNat = ys.length := by
    rw [BitVec.toNat_ofNat]
    omega
  induction hp generalizing fuel with
  | @nil p hend =>
      obtain ⟨fuel, rfl⟩ : ∃ k, fuel = k + 1 := ⟨fuel - 1, by omega⟩
      have hpos := List.length_pos_of_ne_nil hne
      refine ⟨NULL, ?_, Or.inr ⟨rfl, fun j h => hne ?_⟩⟩
      · rw [strstrLoop, BitVec.sle, hint hys, hint hxs, if_neg]
        simp
        omega
      · rwa [List.drop_nil, List.prefix_nil] at h
  | @cons p x xs hc hx htail ih =>
      obtain ⟨fuel, rfl⟩ : ∃ k, fuel = k + 1 := ⟨fuel - 1, by omega⟩
      have hzero := memcmpLoop_zero_iff hq (.cons hc hx htail)
      rw [strstrLoop, BitVec.sle, hint hys, hint hxs, memcmp, hnat]
      by_cases hle : (ys.length : ℤ) ≤ (x :: xs).length
      · rw [if_pos (by simpa using hle)]
        by_cases hhere : ys <+: x :: xs
        · rw [if_pos (hzero.mpr hhere)]
          exact ⟨p, rfl, Or.inl ⟨0, by simp, hhere, fun j hj => absurd hj (Nat.not_lt_zero j)⟩⟩
        · rw [if_neg fun h => hhere (hzero.mp h)]
          have hprev : BitVec.ofNat 32 (x :: xs).length - 1 = BitVec.ofNat 32 xs.length := by
            rw [List.length_cons, BitVec.ofNat_add]
            exact BitVec.add_sub_cancel _ _
          obtain ⟨r, hr, hfirst⟩ := ih (Nat.lt_of_succ_lt hxs)
            (show xs.length < fuel by simpa using hfuel)
          rw [hprev]
          refine ⟨r, hr, ?_⟩
          rcases hfirst with ⟨i, rfl, hi, hbefore⟩ | ⟨rfl, hnone⟩
          · refine Or.inl ⟨i + 1, (add_ofNat_succ p i).symm, hi, fun j hj => ?_⟩
            cases j with
            | zero => exact hhere
            | succ j => exact hbefore j (by omega)
          · refine Or.inr ⟨rfl, fun j => ?_⟩
            cases j with
            | zero => exact hhere
            | succ j => exact hnone j
      · rw [if_neg (by simpa using hle)]
        refine ⟨NULL, rfl, Or.inr ⟨rfl, fun j h => hle ?_⟩⟩
        have hlen := h.length_le
        rw [List.length_drop] at hlen
        omega

-- `strstr` finds the first occurrence, where the lengths are not negative as an `int`.
theorem strstr_first (h1 : Holds mem s1 xs) (h2 : Holds mem s2 ys) (hxs : xs.length < 2 ^ 31)
    (hys : ys.length < 2 ^ 31) : ∃ r, strstr mem s1 s2 = .ok r ∧ FirstAt s1 xs ys r := by
  rw [strstr, strlen_eq h2, Outcome.ok_bind, strlen_eq h1]
  by_cases hnil : ys = []
  · subst hnil
    refine ⟨s1, if_pos rfl, Or.inl ⟨0, by simp, List.nil_prefix, fun j hj => ?_⟩⟩
    exact absurd hj (Nat.not_lt_zero j)
  · have hlen : BitVec.ofNat 32 ys.length ≠ 0 := by
      intro h
      have hval := congrArg BitVec.toNat h
      have hpos := List.length_pos_of_ne_nil hnil
      have hzero : (0 : SizeT).toNat = 0 := rfl
      rw [BitVec.toNat_ofNat, hzero] at hval
      omega
    rw [if_neg hlen, Outcome.ok_bind]
    exact strstrLoop_first h2 hnil hys h1 hxs (by omega)

end Search

-- `b` is at 1 and at 3.
theorem strstr_first_b : strstr someStrings 0 5 = .ok 1 := by
  have habab : Holds someStrings 0 [char 'a', char 'b', char 'a', char 'b'] :=
    .cons rfl (by decide) (.cons rfl (by decide) (.cons rfl (by decide) (.cons rfl (by decide)
      (.nil rfl))))
  have hb : Holds someStrings 5 [char 'b'] := .cons rfl (by decide) (.nil rfl)
  obtain ⟨r, hr, ⟨i, rfl, hi, hbefore⟩ | ⟨-, hnone⟩⟩ :=
    strstr_first habab hb (by decide) (by decide)
  · have hone : ¬1 < i := fun h => hbefore 1 h (by decide)
    have hpos : i ≠ 0 := by
      rintro rfl
      exact absurd hi (by decide)
    obtain rfl : i = 1 := by omega
    exact hr
  · exact absurd (by decide) (hnone 1)

end Lmosem
