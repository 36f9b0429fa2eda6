import Lmosem.Clib.Vsnprintf

-- Which formats destroy the stack.
namespace Lmosem

open Memory While

-- A conversion in base 8 or 16 of a `long long` with its top bit set.
def Piece.Overrun : Piece → Prop
  | .lit _ => False
  | .conv d c args =>
      (c = char 'o' ∨ c = char 'x' ∨ c = char 'X') ∧ d.qualifier = some (char 'L') ∧
        (args 1).msb = true

-- What a format can make of a directive: `SIGN` has no flag character.
def Piece.Made : Piece → Prop
  | .lit _ => True
  | .conv d _ _ => d.flags &&& SIGN = 0 ∧ ∀ q ∈ d.qualifier, isQualifier q = true

theorem formatFlags_unsigned (fmt : List Byte) {flags : U32} (h : flags &&& SIGN = 0) :
    (formatFlags fmt flags).1 &&& SIGN = 0 := by
  induction fmt generalizing flags with
  | nil => exact h
  | cons c fmt ih =>
      rw [formatFlags]
      split
      · rename_i bit hbit
        refine ih ?_
        have hor : bit &&& SIGN = 0 := by
          unfold flagBit at hbit
          split_ifs at hbit <;> obtain rfl := Option.some.inj hbit <;> decide
        rw [BitVec.and_comm, BitVec.and_or_distrib_left, BitVec.and_comm SIGN, h, BitVec.and_comm, hor]
        rfl
      · exact h

theorem formatWidth_unsigned (fmt : List Byte) {flags : U32} (args : VaList)
    (h : flags &&& SIGN = 0) : (formatWidth fmt flags args).2.1 &&& SIGN = 0 := by
  have hleft : (flags ||| LEFT) &&& SIGN = 0 := by
    rw [BitVec.and_comm, BitVec.and_or_distrib_left, BitVec.and_comm SIGN, h]
    rfl
  unfold formatWidth
  dsimp only
  split_ifs
  · exact h
  · exact hleft
  · exact h
  · exact h

theorem formatQualifier_isQualifier (fmt : List Byte) :
    ∀ q ∈ (formatQualifier fmt).1, isQualifier q = true := by
  unfold formatQualifier
  dsimp only
  split_ifs with hq
  · rintro q ⟨⟩
    decide
  · rintro q ⟨⟩
    exact hq
  · rintro q ⟨⟩

theorem takePieces_made (fuel : ℕ) (fmt : List Byte) (args : VaList) :
    ∀ x ∈ takePieces fuel fmt args, x.Made := by
  have hmade (fmt : List Byte) (args : VaList) (c : Byte) :
      Piece.Made (.conv (directive fmt args).1 c (directive fmt args).2.2) :=
    ⟨formatWidth_unsigned _ args (formatFlags_unsigned fmt rfl), formatQualifier_isQualifier _⟩
  induction fuel generalizing fmt args with
  | zero => exact fun x hx => absurd hx List.not_mem_nil
  | succ fuel ih =>
      rw [takePieces]
      dsimp only
      split_ifs
      · exact fun x hx => absurd hx List.not_mem_nil
      · exact List.forall_mem_cons.mpr ⟨trivial, ih _ _⟩
      · exact List.forall_mem_cons.mpr ⟨hmade _ _ _, ih _ _⟩
      · exact List.forall_mem_cons.mpr ⟨hmade _ _ _, ih _ _⟩

section Convert

variable {endp buf : Adr} {d : Directive} {c : Byte} {args : VaList} {o : Out}

theorem numberSign_unsigned {num : U64} {size : U32} {type : U32} (h : type &&& SIGN = 0) :
    (numberSign num size type).2.1 = num := by
  rw [numberSign, if_neg (not_not.mpr h)]

theorem msb_setWidth_eq {w : ℕ} (x : BitVec w) (h : w < 64) : (x.setWidth 64).msb = false := by
  rw [BitVec.msb_setWidth, BitVec.getLsbD_of_ge x 63 (by omega), Bool.and_false]

-- Without `SIGN`, an argument has its top bit set if it is a `long long` that has.
theorem integerArg_msb {qualifier : Option Byte} {flags : U32} (h : flags &&& SIGN = 0) :
    (integerArg qualifier flags args).1.msb = true ↔
      qualifier = some (char 'L') ∧ (args 1).msb = true := by
  unfold integerArg
  simp only [h, ne_eq, not_true_eq_false, if_false]
  split_ifs with hL
  · rw [BitVec.msb_append, if_neg (by decide)]
    exact (and_iff_right hL).symm
  all_goals
    rw [msb_setWidth_eq _ (by decide)]
    exact ⟨fun hf => absurd hf Bool.false_ne_true, fun hf => absurd hf.1 hL⟩

theorem integerBase_cases {base flag : U32} (h : integerBase c = some (base, flag)) :
    (c = char 'o' ∨ c = char 'x' ∨ c = char 'X') ∧ base ≠ 10 ∧ flag &&& SIGN = 0 ∨
      ¬(c = char 'o' ∨ c = char 'x' ∨ c = char 'X') ∧ base = 10 := by
  unfold integerBase at h
  split_ifs at h with ho hX hx hd hu <;> obtain ⟨rfl, rfl⟩ := Prod.mk.inj (Option.some.inj h)
  · exact Or.inl ⟨Or.inl ho, by decide, by decide⟩
  · exact Or.inl ⟨Or.inr (Or.inr hX), by decide, by decide⟩
  · exact Or.inl ⟨Or.inr (Or.inl hx), by decide, by decide⟩
  · exact Or.inr ⟨by simp only [ho, hX, hx, or_self, not_false_eq_true], rfl⟩
  · exact Or.inr ⟨by simp only [ho, hX, hx, or_self, not_false_eq_true], rfl⟩

-- The number of an integer conversion overruns `tmp` where the piece says so.
theorem overruns_iff {base flag size : U32} (hs : Piece.Made (.conv d c args))
    (h : integerBase c = some (base, flag)) :
    Overruns (numberSign (integerArg d.qualifier (d.flags ||| flag) args).1 size
      (d.flags ||| flag)).2.1 base ↔ Piece.Overrun (.conv d c args) := by
  rcases integerBase_cases h with ⟨hc, hbase, hflag⟩ | ⟨hc, hbase⟩
  · have hor : (d.flags ||| flag) &&& SIGN = 0 := by
      have hs : d.flags &&& SIGN = 0 := hs.1
      rw [BitVec.and_comm, BitVec.and_or_distrib_left, BitVec.and_comm SIGN, hs, BitVec.and_comm,
        hflag]
      rfl
    rw [numberSign_unsigned hor, Overruns, integerArg_msb hor]
    exact (and_iff_right hbase).trans (and_iff_right hc).symm
  · exact ⟨fun hf => absurd hbase hf.1, fun hf => absurd hf.1 hc⟩

theorem convert_fault (hs : Piece.Made (.conv d c args))
    (h : Piece.Overrun (.conv d c args)) : convert endp buf d c args o = .fault := by
  obtain ⟨base, flag, hbase, hc⟩ : ∃ base flag, integerBase c = some (base, flag) ∧
      ¬(c = char 'c' ∨ c = char 's' ∨ c = char 'p' ∨ c = char 'n' ∨ c = char '%') := by
    obtain ⟨rfl | rfl | rfl, -⟩ := h <;> exact ⟨_, _, rfl, by decide⟩
  rw [not_or, not_or, not_or, not_or] at hc
  rw [convert, if_neg hc.1, if_neg hc.2.1, if_neg hc.2.2.1, if_neg hc.2.2.2.1, if_neg hc.2.2.2.2,
    hbase]
  simp only [number_fault _ _ _ _ ((overruns_iff hs hbase).mpr h)]
  rfl

theorem pointer_ok {flags size precision x : U32} (h : flags &&& SIGN = 0) :
    ∃ o', number endp (x.setWidth 64) 16 size precision flags o = .ok o' := by
  refine ⟨_, number_eq endp size precision o (Or.inr (Or.inr rfl)) ?_⟩
  rw [numberSign_unsigned h, Overruns, msb_setWidth_eq _ (by decide)]
  exact fun hf => Bool.false_ne_true hf.2

theorem convert_ok (endp buf : Adr) (o : Out) (hs : Piece.Made (.conv d c args)) (h : ¬Piece.Overrun (.conv d c args)) :
    ∃ o', convert endp buf d c args o = .ok (convArgs d c args, o') := by
  suffices hok : ∃ x, convert endp buf d c args o = .ok x by
    obtain ⟨⟨args', o'⟩, hx⟩ := hok
    exact ⟨o', hx.trans (by rw [convert_args hx])⟩
  unfold convert
  by_cases hchar : c = char 'c'
  · exact ⟨_, if_pos hchar⟩
  by_cases hstring : c = char 's'
  · exact ⟨_, (if_neg hchar).trans (if_pos hstring)⟩
  rw [if_neg hchar, if_neg hstring]
  by_cases hpointer : c = char 'p'
  · have hs : d.flags &&& SIGN = 0 := hs.1
    have hzero : (d.flags ||| ZEROPAD) &&& SIGN = 0 := by
      rw [BitVec.and_comm, BitVec.and_or_distrib_left, BitVec.and_comm SIGN, hs]
      rfl
    rw [if_pos hpointer]
    split_ifs <;> dsimp only
    · obtain ⟨o', ho⟩ := pointer_ok hzero
      exact ⟨_, by rw [ho, Outcome.ok_bind]⟩
    · obtain ⟨o', ho⟩ := pointer_ok hs
      exact ⟨_, by rw [ho, Outcome.ok_bind]⟩
  rw [if_neg hpointer]
  by_cases hcount : c = char 'n'
  · exact ⟨_, if_pos hcount⟩
  by_cases hpercent : c = char '%'
  · exact ⟨_, (if_neg hcount).trans (if_pos hpercent)⟩
  rw [if_neg hcount, if_neg hpercent]
  cases hbase : integerBase c with
  | some base =>
      obtain ⟨base, flag⟩ := base
      have ho := number_eq endp d.field_width d.precision o (integerBase_numberBase hbase)
        ((overruns_iff hs hbase).not.mpr h)
      dsimp only
      exact ⟨_, by rw [ho, Outcome.ok_bind]⟩
  | none => exact ⟨_, rfl⟩

end Convert

-- By induction on the pieces: the first one that overruns ends the run.
theorem sendPieces_cases (endp buf : Adr) (ps : List Piece) (hs : ∀ x ∈ ps, x.Made) (o : Out) :
    (∃ x ∈ ps, x.Overrun) ∧ sendPieces endp buf ps o = .fault ∨
      (¬∃ x ∈ ps, x.Overrun) ∧ ∃ o', sendPieces endp buf ps o = .ok o' := by
  induction ps generalizing o with
  | nil => exact Or.inr ⟨by rintro ⟨x, hx, -⟩; exact List.not_mem_nil hx, o, rfl⟩
  | cons x ps ih =>
      obtain ⟨hx, hps⟩ := List.forall_mem_cons.mp hs
      simp only [List.mem_cons, exists_eq_or_imp]
      cases x with
      | lit c =>
          rw [sendPieces, or_iff_right (id : ¬(Piece.lit c).Overrun)]
          exact ih hps _
      | conv d c args =>
          rw [sendPieces]
          by_cases hover : Piece.Overrun (.conv d c args)
          · rw [convert_fault hx hover]
            exact Or.inl ⟨Or.inl hover, rfl⟩
          · obtain ⟨o', ho⟩ := convert_ok endp buf o hx hover
            rw [ho, or_iff_right hover]
            exact ih hps o'

-- The stack is destroyed where a format prints a `long long` with its top bit set in base 8 or
-- 16, whatever buffer it prints to. Every other format is printed.
theorem vsnprintf_fault_iff (mem : Mem 32) (buf : Adr) {size : SizeT} (fmt : List Byte)
    (args : VaList) (hsize : size.slt 0 = false) :
    (vsnprintf mem buf size fmt args = .fault ↔ ∃ x ∈ formatPieces fmt args, x.Overrun) ∧
      ((¬∃ x ∈ formatPieces fmt args, x.Overrun) → ∃ r, vsnprintf mem buf size fmt args = .ok r) := by
  have hcases (endp : Adr) := sendPieces_cases endp buf (formatPieces fmt args)
    (takePieces_made _ fmt args) ⟨mem, buf⟩
  unfold vsnprintf
  rw [hsize, if_neg Bool.false_ne_true]
  simp only [vsnprintfLoop_eq _ _ fmt args _ (Nat.lt_succ_self _)]
  generalize (if buf + size - 1 < buf - 1 then _ else _ : Adr × SizeT) = x
  obtain ⟨endp, size⟩ := x
  rcases hcases endp with ⟨hover, hf⟩ | ⟨hover, o, ho⟩
  · unfold formatPieces at hf
    dsimp only
    rw [hf]
    exact ⟨iff_of_true rfl hover, fun hnone => absurd hover hnone⟩
  · unfold formatPieces at ho
    dsimp only
    rw [ho]
    exact ⟨iff_of_false (fun h => by cases h) hover, fun _ => ⟨_, rfl⟩⟩

-- `%llx` of -1.
theorem vsnprintf_fault_minusOne :
    vsnprintf (fun _ => 0) 0x1000 64 [char '%', char 'l', char 'l', char 'x'] (fun _ => -1) =
      .fault :=
  (vsnprintf_fault_iff _ _ _ _ rfl).1.mpr ⟨_, List.mem_singleton.mpr rfl, by decide, rfl, by decide⟩

end Lmosem
