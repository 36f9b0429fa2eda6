import Lmosem.Clib.FormatText

-- `vsnprintf` puts the text of its format into the buffer.
namespace Lmosem

open Memory While

-- Addresses beside what is written to a buffer, which reaches so far.
def Beside (buf : Adr) (reach : ℕ) (used : List Adr) : Prop := ∀ a ∈ used, reach ≤ off buf a

instance (buf : Adr) (reach : ℕ) (used : List Adr) : Decidable (Beside buf reach used) :=
  List.decidableBAll (fun a => reach ≤ off buf a) used

theorem strnlen_le (s : ℕ → Byte) (count i : ℕ) : strnlen s count i ≤ i + count := by
  induction count generalizing i with
  | zero => exact Nat.le_refl i
  | succ count ih =>
      rw [strnlen]
      split_ifs
      · exact (ih (i + 1)).trans (by omega)
      · omega

theorem le_strnlen (s : ℕ → Byte) (count i : ℕ) : i ≤ strnlen s count i := by
  induction count generalizing i with
  | zero => exact Nat.le_refl i
  | succ count ih =>
      rw [strnlen]
      split_ifs
      · exact (Nat.le_succ i).trans (ih (i + 1))
      · exact Nat.le_refl i

-- The bytes up to the terminator decide the length.
theorem strnlen_congr {s t : ℕ → Byte} {count i : ℕ}
    (h : ∀ j, i ≤ j → j < strnlen t count i + 1 → j < i + count → s j = t j) :
    strnlen s count i = strnlen t count i := by
  induction count generalizing i with
  | zero => rfl
  | succ count ih =>
      have hfirst : s i = t i :=
        h i (Nat.le_refl i) (Nat.lt_succ_of_le (le_strnlen t _ i)) (by omega)
      rw [strnlen, strnlen, hfirst]
      split_ifs with hne
      · refine ih fun j hij hj hcount => h j (by omega) ?_ (by omega)
        rwa [strnlen, if_pos hne]
      · rfl

section Convert

variable {buf endp : Adr} {size reach : ℕ} {m : Mem 32} {text : List Byte} {o : Out}
variable {d : Directive} {c : Byte} {args : VaList} {v : Printed}

-- A string beside the text is copied as it is.
theorem copyString_textIn {s : Adr} (h : TextIn buf size m text o) (hb : Buffer buf size endp)
    {left i : ℕ} (hread : ∀ o, (∀ a, reach ≤ off buf a → o a = m a) → ∀ j, i ≤ j → j < i + left →
      stringChar s o j = stringChar s m j) (hreach : min size (text.length + left) ≤ reach)
    (hfits : buf.toNat + (text.length + left) ≤ 2 ^ 32) :
    TextIn buf size m (text ++ (List.range' i left).map (stringChar s m))
      (copyString endp s left i o) := by
  induction left generalizing text o i with
  | zero => simpa [copyString] using h
  | succ left ih =>
      have hchar : stringChar s o.mem i = stringChar s m i :=
        hread o.mem (fun a ha => h.rest a (by omega)) i (Nat.le_refl i) (by omega)
      rw [copyString, hchar, List.range'_succ, List.map_cons, List.append_cons]
      refine ih (h.putChar hb (by omega)) (fun o ho j hj hlt => hread o ho j (by omega) (by omega))
        ?_ ?_ <;> rw [List.length_append, List.length_singleton] <;> omega

theorem spaces_textIn (h : TextIn buf size m text o) (hb : Buffer buf size endp) {n : ℕ}
    (hfits : buf.toNat + (text.length + n) ≤ 2 ^ 32) :
    TextIn buf size m (text ++ List.replicate n (char ' '))
      (emits (putChar endp) (List.replicate n (char ' ')) o) := by
  refine h.emits putChar_writes hb _ ?_
  rwa [List.length_append, List.length_replicate]

-- A field: spaces in front, what `body` writes, spaces behind.
theorem field_textIn {dec : (Out → Out) → U32 → Out → U32 × Out} {turns : U32 → ℕ} {rest : U32 → U32}
    {inner : List Byte} (body : Out → Out) (h : TextIn buf size m text o) (hb : Buffer buf size endp)
    (hdec : ∀ x o, dec (putChar endp (char ' ')) x o =
      (rest x, emits (putChar endp) (List.replicate (turns x) (char ' ')) o))
    (hbody : ∀ text o, TextIn buf size m text o → min size (text.length + inner.length) ≤ reach →
      buf.toNat + (text.length + inner.length) ≤ 2 ^ 32 → TextIn buf size m (text ++ inner) (body o))
    (hreach : min size (text ++ padded turns rest d inner).length ≤ reach)
    (hfits : buf.toNat + (text ++ padded turns rest d inner).length ≤ 2 ^ 32) :
    TextIn buf size m (text ++ padded turns rest d inner)
      (let (field_width, str) :=
        if d.flags &&& LEFT = 0 then dec (putChar endp (char ' ')) d.field_width o
        else (d.field_width, o)
      (dec (putChar endp (char ' ')) field_width (body str)).2) := by
  unfold padded at hreach hfits ⊢
  split_ifs at hreach hfits ⊢ with hleft
  · simp only [List.length_append, List.length_replicate] at hreach hfits
    simp only [hdec, ← List.append_assoc]
    refine spaces_textIn (hbody _ _ (spaces_textIn h hb (by omega)) ?_ ?_) hb ?_ <;>
      simp only [List.length_append, List.length_replicate] <;> omega
  · simp only [List.length_append, List.length_replicate] at hreach hfits
    simp only [hdec, ← List.append_assoc]
    refine spaces_textIn (hbody _ _ h (by omega) (by omega)) hb ?_
    rw [List.length_append]
    omega

-- What `number` comes to, as text.
theorem number_textIn {num : U64} {base : U32} {width precision : U32} {type : U32}
    (hbase : NumberBase base) (h : TextIn buf size m text o) (hb : Buffer buf size endp)
    (hv : numberPrinted num base width precision type m = .ok v)
    (hfits : buf.toNat + (text ++ v.text).length ≤ 2 ^ 32) :
    ∃ o', number endp num base width precision type o = .ok o' ∧
      TextIn buf size v.mem (text ++ v.text) o' := by
  unfold numberPrinted at hv
  split_ifs at hv with hover
  obtain rfl := Outcome.ok.inj hv
  exact ⟨_, number_eq endp width precision o hbase hover, h.emits ADDCH_writes hb _ hfits⟩

theorem integerBase_numberBase {base flag : U32} (h : integerBase c = some (base, flag)) :
    NumberBase base := by
  unfold integerBase at h
  unfold NumberBase
  split_ifs at h <;> obtain ⟨rfl, -⟩ := Prod.mk.inj (Option.some.inj h) <;> simp

-- A string that lies beside the buffer is there whatever is written into the buffer.
theorem stringChar_beside {s : Adr} {o : Mem 32} (hused : Beside buf reach (stringPrinted d s m).used)
    (ho : ∀ a, reach ≤ off buf a → o a = m a) {j : ℕ}
    (hj : j < strnlen (stringChar s m) d.precision.toNat 0 + 1)
    (hcount : j < d.precision.toNat) : stringChar s o j = stringChar s m j := by
  unfold stringChar
  split_ifs with hlow
  · rfl
  · refine ho _ (hused _ ?_)
    rw [stringPrinted, if_neg hlow]
    exact List.mem_map.mpr ⟨j, List.mem_range.mpr (lt_min hj hcount), rfl⟩

theorem toInt_ofNat_le (n : ℕ) : (BitVec.ofNat 32 n).toInt.toNat ≤ n := by
  have hmod := Nat.mod_le n (2 ^ 32)
  rw [BitVec.toInt_eq_toNat_cond, BitVec.toNat_ofNat]
  split_ifs <;> omega

theorem string_textIn (h : TextIn buf size m text o) (hb : Buffer buf size endp)
    (hused : Beside buf reach (stringPrinted d (args 0) m).used)
    (hreach : min size (text ++ (stringPrinted d (args 0) m).text).length ≤ reach)
    (hfits : buf.toNat + (text ++ (stringPrinted d (args 0) m).text).length ≤ 2 ^ 32) :
    ∃ o', convert endp buf d (char 's') args o = .ok (args.skip 1, o') ∧
      TextIn buf size m (text ++ (stringPrinted d (args 0) m).text) o' := by
  have hchar (o : Mem 32) (ho : ∀ a, reach ≤ off buf a → o a = m a) (j : ℕ) :=
    stringChar_beside hused ho (j := j)
  have hle := strnlen_le (stringChar (args 0) m) d.precision.toNat 0
  have hsame : strnlen (stringChar (args 0) o.mem) d.precision.toNat 0 =
      strnlen (stringChar (args 0) m) d.precision.toNat 0 :=
    strnlen_congr fun j _ hj hcount =>
      hchar o.mem (fun a ha => h.rest a (by
        rw [List.length_append] at hreach
        omega)) j hj (by omega)
  unfold convert
  rw [if_neg (by decide), if_pos rfl]
  simp only [hsame]
  unfold stringPrinted at hfits hreach ⊢
  dsimp only at hfits hreach ⊢
  generalize strnlen (stringChar (args 0) m) d.precision.toNat 0 = n at *
  have hlen := toInt_ofNat_le n
  generalize BitVec.ofNat 32 n = len at *
  refine ⟨_, rfl, field_textIn (copyString endp (args 0) len.toInt.toNat 0) h hb
    (fun x o => ?_) (fun text o h hreach hfits => ?_) hreach hfits⟩
  · rw [postDec_eq, emits_replicate]
  rw [List.length_map, List.length_range] at hfits hreach
  rw [List.range_eq_range']
  exact copyString_textIn h hb (fun o ho j _ hlt => hchar o ho j (by omega) (by omega)) hreach hfits

-- A word beside the buffer.
theorem store_textIn {ip : Adr} {value : U32} (h : TextIn buf size m text o)
    (hip : Beside buf reach ((List.range 4).map fun i => ip + BitVec.ofNat 32 i))
    (hreach : min size text.length ≤ reach) :
    TextIn buf size (store m ip value) text ⟨store o.mem ip value, o.str⟩ := by
  have hword (a : Adr) (ha : off ip a < 4) : reach ≤ off buf a := by
    refine hip a (List.mem_map.mpr ⟨off ip a, List.mem_range.mpr ha, add_off ip a⟩)
  refine ⟨h.str, fun a ha hsize => ?_, fun a ha => ?_⟩ <;> dsimp only [store]
  · rw [fill_out (Nat.le_of_not_lt fun hlt => by have := hword a hlt; omega)]
    exact h.chars a ha hsize
  · unfold fill
    split_ifs
    · rfl
    · exact h.rest a ha

-- A conversion adds its text.
theorem convert_textIn (h : TextIn buf size m text o) (hb : Buffer buf size endp)
    (hv : convPrinted text.length d c args m = .ok v) (hused : Beside buf reach v.used)
    (hreach : min size (text ++ v.text).length ≤ reach)
    (hfits : buf.toNat + (text ++ v.text).length ≤ 2 ^ 32) :
    ∃ o', convert endp buf d c args o = .ok (convArgs d c args, o') ∧
      TextIn buf size v.mem (text ++ v.text) o' := by
  unfold convPrinted at hv
  unfold convArgs
  by_cases hchar : c = char 'c'
  · rw [if_pos hchar] at hv
    obtain rfl := Outcome.ok.inj hv
    rw [if_pos (Or.inl hchar), convert, if_pos hchar]
    exact ⟨_, rfl, field_textIn (putChar endp ((args 0).setWidth 8)) h hb
      (fun x o => preDec_emits _ (by decide) x _ o)
      (fun text o h _ hfits => h.putChar hb (by simp at hfits; omega)) hreach hfits⟩
  by_cases hstring : c = char 's'
  · rw [if_neg hchar, if_pos hstring] at hv
    obtain rfl := Outcome.ok.inj hv
    rw [if_pos (Or.inr (Or.inl hstring)), hstring]
    exact string_textIn h hb hused hreach hfits
  by_cases hpointer : c = char 'p'
  · rw [if_neg hchar, if_neg hstring, if_pos hpointer] at hv
    rw [if_pos (Or.inr (Or.inr (Or.inl hpointer))), convert, if_neg hchar, if_neg hstring,
      if_pos hpointer]
    have hnumber : ∃ o', number endp ((args 0).setWidth 64) 16
        (if d.field_width = -1 then 8 else d.field_width) d.precision
        (if d.field_width = -1 then d.flags ||| ZEROPAD else d.flags) o = .ok o' ∧
        TextIn buf size v.mem (text ++ v.text) o' := by
      split_ifs at hv ⊢ <;> exact number_textIn (Or.inr (Or.inr rfl)) h hb hv hfits
    obtain ⟨o', ho, htext⟩ := hnumber
    refine ⟨o', ?_, htext⟩
    split_ifs at ho ⊢ <;> simp only [ho, Outcome.ok_bind]
  by_cases hcount : c = char 'n'
  · rw [if_neg hchar, if_neg hstring, if_neg hpointer, if_pos hcount] at hv
    obtain rfl := Outcome.ok.inj hv
    rw [if_pos (Or.inr (Or.inr (Or.inr hcount))), convert, if_neg hchar, if_neg hstring,
      if_neg hpointer, if_pos hcount]
    have hdiff : o.str - buf = BitVec.ofNat 32 text.length := by
      rw [h.str, BitVec.add_comm, BitVec.add_sub_cancel]
    rw [List.append_nil] at hreach
    rw [hdiff, List.append_nil]
    exact ⟨_, rfl, store_textIn h hused hreach⟩
  rw [if_neg hchar, if_neg hstring, if_neg hpointer, if_neg hcount] at hv
  rw [if_neg (by simp only [hchar, hstring, hpointer, hcount, or_self, not_false_eq_true]), convert,
    if_neg hchar, if_neg hstring, if_neg hpointer, if_neg hcount]
  by_cases hpercent : c = char '%'
  · rw [if_pos hpercent] at hv
    obtain rfl := Outcome.ok.inj hv
    rw [if_pos hpercent, if_neg (by subst hpercent; decide)]
    refine ⟨_, rfl, h.putChar hb ?_⟩
    simp at hfits
    omega
  rw [if_neg hpercent] at hv
  rw [if_neg hpercent]
  cases hbase : integerBase c with
  | some base =>
      obtain ⟨base, flag⟩ := base
      rw [hbase] at hv
      obtain ⟨o', ho, htext⟩ := number_textIn (integerBase_numberBase hbase) h hb hv hfits
      rw [Option.isSome_some, if_pos rfl, ← integerArg_args d.qualifier (d.flags ||| flag)]
      exact ⟨o', by simp only [ho, Outcome.ok_bind], htext⟩
  | none =>
      rw [hbase] at hv
      obtain rfl := Outcome.ok.inj hv
      rw [Option.isSome_none, if_neg Bool.false_ne_true]
      refine ⟨_, rfl, ?_⟩
      dsimp only at hfits ⊢
      split_ifs at hfits ⊢
      · have hfirst : text ++ [char '%', c] = text ++ [char '%'] ++ [c] := by simp
        rw [hfirst]
        simp at hfits
        exact (h.putChar hb (by omega)).putChar hb (by simp; omega)
      · simp at hfits
        exact h.putChar hb (by omega)

end Convert

-- The run over a format: by induction on its pieces, with the text that is in the buffer.
theorem sendPieces_textIn {buf endp : Adr} {size reach : ℕ} (hb : Buffer buf size endp) (ps : List Piece)
    {m : Mem 32} {text : List Byte} {o : Out} {p : Printed} (h : TextIn buf size m text o)
    (hp : printed text.length ps m = .ok p) (hused : Beside buf reach p.used)
    (hreach : min size (text ++ p.text).length ≤ reach)
    (hfits : buf.toNat + (text ++ p.text).length ≤ 2 ^ 32) :
    ∃ o', sendPieces endp buf ps o = .ok o' ∧ TextIn buf size p.mem (text ++ p.text) o' := by
  induction ps generalizing m text o p with
  | nil =>
      obtain rfl := Outcome.ok.inj hp
      exact ⟨o, rfl, by rwa [List.append_nil]⟩
  | cons x ps ih =>
      cases x with
      | lit c =>
          obtain ⟨q, hq, hp⟩ := Outcome.bind_eq_ok.mp hp
          obtain rfl := Outcome.ok.inj hp
          dsimp only at hused hreach hfits ⊢
          rw [List.append_cons] at hfits hreach ⊢
          refine ih (h.putChar hb ?_) (by rwa [List.length_append]) hused hreach hfits
          simp only [List.length_append, List.length_singleton] at hfits
          omega
      | conv d c args =>
          obtain ⟨v, hv, hp⟩ := Outcome.bind_eq_ok.mp hp
          obtain ⟨q, hq, hp⟩ := Outcome.bind_eq_ok.mp hp
          obtain rfl := Outcome.ok.inj hp
          dsimp only at hused hreach hfits ⊢
          rw [← List.append_assoc] at hfits hreach ⊢
          have hlen : (text ++ v.text).length ≤ (text ++ v.text ++ q.text).length := by
            exact (List.prefix_append _ _).length_le
          obtain ⟨o', ho, htext⟩ := convert_textIn h hb hv
            (fun a ha => hused a (List.mem_append_left _ ha)) (by omega) (by omega)
          obtain ⟨o'', ho'', htext'⟩ := ih htext (by rwa [List.length_append])
            (fun a ha => hused a (List.mem_append_right _ ha)) hreach hfits
          exact ⟨o'', by simp only [sendPieces, ho, Outcome.ok_bind, ho''], htext'⟩

-- The bytes of a buffer that are there for `vsnprintf`. A buffer at address 0 has them all.
def room (buf : Adr) (size : SizeT) : ℕ :=
  if buf = 0 then 2 ^ 32 else min size.toNat (2 ^ 32 - buf.toNat)

-- What `vsnprintf` leaves of a text: what fits, and a terminator.
def stored (mem : Mem 32) (buf : Adr) (room : ℕ) (text : List Byte) : Mem 32 :=
  fill mem buf (min (text.length + 1) room) fun i => if i + 1 < room then text.getD i 0 else 0

-- A text that fits is written whole.
theorem stored_fits (mem : Mem 32) (buf : Adr) {room : ℕ} {text : List Byte} (h : text.length < room) :
    stored mem buf room text = fill mem buf (text.length + 1) fun i => text.getD i 0 := by
  rw [stored, Nat.min_eq_left h]
  refine fill_congr fun i hi => ?_
  split_ifs with hin
  · rfl
  · rw [List.getD_eq_default _ _ (by omega)]

-- Where `end` and `size` are, behind the check for an overflow.
theorem vsnprintf_buffer (buf : Adr) {size : SizeT} (hsize : size.slt 0 = false) {x : Adr × SizeT}
    (hx : x = if buf + size - 1 < buf - 1 then (-1, -1 - buf + 1) else (buf + size - 1, size)) :
    Buffer buf (room buf size) x.1 ∧ (x.2 > 0 ↔ buf ≠ 0 ∧ 0 < room buf size) := by
  have hlast : (-1 : Adr).toNat = 2 ^ 32 - 1 := by decide
  have hnil : (0 : Adr).toNat = 0 := rfl
  by_cases hzero : buf = 0
  · subst hzero
    obtain rfl : x = (-1, 0) := by
      rw [hx]
      split_ifs with hlt
      · decide
      · obtain rfl : size = 0 := by
          rw [BitVec.lt_def] at hlt
          bv_omega
        decide
    have hroom : room 0 size = 2 ^ 32 := if_pos rfl
    rw [hroom]
    refine ⟨⟨by omega, by dsimp only; omega⟩, ?_⟩
    simp
  · have hpos : 0 < buf.toNat := by bv_omega
    have hbuf := buf.isLt
    have hsmall := size.isLt
    have hroom : room buf size = min size.toNat (2 ^ 32 - buf.toNat) := if_neg hzero
    have hfirst : (buf - 1).toNat = buf.toNat - 1 := by bv_omega
    by_cases hwrap : buf.toNat + size.toNat ≤ 2 ^ 32
    · have hend : (buf + size - 1).toNat = buf.toNat + size.toNat - 1 := by bv_omega
      rw [if_neg (by rw [BitVec.lt_def]; omega)] at hx
      subst hx
      refine ⟨⟨by omega, by dsimp only; omega⟩, ?_⟩
      rw [gt_iff_lt, BitVec.lt_def]
      simp only [ne_eq, hzero, not_false_eq_true, true_and]
      omega
    · have hend : (buf + size - 1).toNat = buf.toNat + size.toNat - 1 - 2 ^ 32 := by bv_omega
      have hsize' : (-1 - buf + 1).toNat = 2 ^ 32 - buf.toNat := by bv_omega
      rw [if_pos (by rw [BitVec.lt_def]; omega)] at hx
      subst hx
      refine ⟨⟨by omega, by dsimp only; omega⟩, ?_⟩
      rw [gt_iff_lt, BitVec.lt_def]
      simp only [ne_eq, hzero, not_false_eq_true, true_and]
      omega

-- The terminator goes behind the text, or to the last byte.
theorem terminate_eq {buf endp : Adr} {size : ℕ} {m : Mem 32} {text : List Byte} {o : Out}
    {last : Prop} [Decidable last] (h : TextIn buf size m text o) (hb : Buffer buf size endp)
    (hfits : buf.toNat + text.length < 2 ^ 32) (hlast : size ≤ text.length → (last ↔ 0 < size)) :
    (if o.str ≤ endp then Function.update o.mem o.str 0
      else if last then Function.update o.mem endp 0 else o.mem) = stored m buf size text := by
  have hle : o.str ≤ endp ↔ text.length < size := by
    have hstr := h.str_toNat hfits
    have hend := hb.last
    rw [BitVec.le_def]
    omega
  funext a
  unfold stored fill
  dsimp only
  by_cases hroom : text.length < size
  · rw [if_pos (hle.mpr hroom), Nat.min_eq_left hroom]
    by_cases ha : off buf a = text.length
    · rw [ha, (off_eq_iff (by omega)).mp ha, ← h.str, Function.update_self, if_pos (Nat.lt_succ_self _),
        List.getD_eq_default _ _ (Nat.le_refl _), ite_self]
    · have hne : a ≠ o.str := fun he => ha ((off_eq_iff (by omega)).mpr (he.trans h.str))
      rw [Function.update_of_ne hne]
      split_ifs with hin hlt
      · exact h.chars a (by omega) hlt
      · omega
      · exact h.rest a (by omega)
  · rw [if_neg (hle.not.mpr hroom), Nat.min_eq_right (by omega)]
    by_cases hpos : 0 < size
    · rw [if_pos ((hlast (by omega)).mpr hpos)]
      have hend : endp = buf + BitVec.ofNat 32 (size - 1) := by
        apply BitVec.eq_of_toNat_eq
        have hlast := hb.last
        rw [add_toNat (by omega)]
        omega
      by_cases ha : off buf a = size - 1
      · rw [ha, (off_eq_iff (by omega)).mp ha, ← hend, Function.update_self, if_pos (by omega),
          if_neg (by omega)]
      · have hne : a ≠ endp := fun he => ha ((off_eq_iff (by omega)).mpr (he.trans hend))
        rw [Function.update_of_ne hne]
        split_ifs with hin hlt
        · exact h.chars a (by omega) hlt
        · omega
        · exact h.rest a (by omega)
    · rw [if_neg ((hlast (by omega)).not.mpr hpos), if_neg (by omega)]
      exact h.rest a (by omega)

-- What is left to do with a text that has been sent is to terminate it.
theorem vsnprintf_of_sent {mem m : Mem 32} {buf : Adr} {size : SizeT} {fmt : List Byte}
    {args : VaList} {text : List Byte} (hsize : size.slt 0 = false)
    (hfits : buf.toNat + text.length < 2 ^ 32)
    (hsent : ∀ endp, Buffer buf (room buf size) endp →
      ∃ o, sendPieces endp buf (formatPieces fmt args) ⟨mem, buf⟩ = .ok o ∧
        TextIn buf (room buf size) m text o) :
    vsnprintf mem buf size fmt args =
      .ok (BitVec.ofNat 32 text.length, stored m buf (room buf size) text) := by
  obtain ⟨hb, hlast⟩ := vsnprintf_buffer buf hsize rfl
  obtain ⟨o, ho, htext⟩ := hsent _ hb
  have hlen : o.str - buf = BitVec.ofNat 32 text.length := by
    rw [htext.str, BitVec.add_comm, BitVec.add_sub_cancel]
  have hzero : room buf size ≤ text.length → buf ≠ 0 := by
    rintro hle rfl
    rw [room, if_pos rfl] at hle
    omega
  unfold vsnprintf
  rw [hsize, if_neg Bool.false_ne_true]
  simp only [vsnprintfLoop_eq _ _ fmt args _ (Nat.lt_succ_self _)]
  unfold formatPieces at ho
  simp only [ho, Outcome.ok_bind, hlen]
  rw [terminate_eq htext hb hfits fun hle => hlast.trans (and_iff_right (hzero hle))]

-- The pieces that can be printed are sent like that.
theorem printed_sent {mem : Mem 32} {buf endp : Adr} {size : ℕ} {ps : List Piece} {p : Printed}
    (hb : Buffer buf size endp) (hp : printed 0 ps mem = .ok p)
    (hused : Beside buf (min size p.text.length) p.used) (hfits : buf.toNat + p.text.length < 2 ^ 32) :
    ∃ o, sendPieces endp buf ps ⟨mem, buf⟩ = .ok o ∧ TextIn buf size p.mem p.text o := by
  have h := sendPieces_textIn hb ps (TextIn.start buf size mem) hp hused
    (by rw [List.nil_append]) (by rw [List.nil_append]; omega)
  rwa [List.nil_append] at h

-- `vsnprintf` returns the length of the text, however much of it fits, and writes what fits.
theorem vsnprintf_eq {mem : Mem 32} {buf : Adr} {size : SizeT} {fmt : List Byte} {args : VaList}
    {p : Printed} (hsize : size.slt 0 = false) (hp : printed 0 (formatPieces fmt args) mem = .ok p)
    (hused : Beside buf (min (room buf size) p.text.length) p.used)
    (hfits : buf.toNat + p.text.length < 2 ^ 32) :
    vsnprintf mem buf size fmt args =
      .ok (BitVec.ofNat 32 p.text.length, stored p.mem buf (room buf size) p.text) :=
  vsnprintf_of_sent hsize hfits fun _ hb => printed_sent hb hp hused hfits

-- `a%5d` with 42 in a buffer of four bytes.
theorem vsnprintf_cut : vsnprintf (fun _ => 0) 0x1000 4 [char 'a', char '%', char '5', char 'd']
    (fun _ => 42) = .ok (BitVec.ofNat 32 6, stored (fun _ => 0) 0x1000 (room 0x1000 4)
      [char 'a', char ' ', char ' ', char ' ', char '4', char '2']) := by
  have hp : printed 0 (formatPieces [char 'a', char '%', char '5', char 'd'] fun _ => 42)
      (fun _ => 0) =
      .ok ⟨[char 'a', char ' ', char ' ', char ' ', char '4', char '2'], [], fun _ => 0⟩ := rfl
  exact vsnprintf_eq (by decide) hp (fun _ h => absurd h List.not_mem_nil) (by decide)

def vscnprintf (mem : Mem 32) (buf : Adr) (size : SizeT) (fmt : List Byte) (args : VaList) :
    Outcome (U32 × Mem 32) := do
  let (i, mem) ← vsnprintf mem buf size fmt args
  .ok (if i ≥ size then size - 1 else i, mem)

def scnprintf (mem : Mem 32) (buf : Adr) (size : SizeT) (fmt : List Byte) (args : VaList) :
    Outcome (U32 × Mem 32) := do
  let (i, mem) ← vsnprintf mem buf size fmt args
  .ok (if i ≥ size then size - 1 else i, mem)

-- Where the text is cut off, a buffer of `size` bytes has `size - 1` of it, if it has any bytes.
theorem scnprintf_count (n : ℕ) (size : SizeT) (hn : n < 2 ^ 32) :
    (if BitVec.ofNat 32 n ≥ size then size - 1 else BitVec.ofNat 32 n).toNat =
      min n (size.toNat - 1) ↔ size ≠ 0 := by
  have hval : (BitVec.ofNat 32 n).toNat = n := by
    rw [BitVec.toNat_ofNat]
    omega
  have hge : BitVec.ofNat 32 n ≥ size ↔ size.toNat ≤ n := by rw [ge_iff_le, BitVec.le_def, hval]
  by_cases hzero : size = 0
  · subst hzero
    have hlast : (0 - 1 : U32).toNat = 2 ^ 32 - 1 := rfl
    have hnil : (0 : SizeT).toNat = 0 := rfl
    rw [if_pos (hge.mpr (Nat.zero_le n)), hlast, hnil]
    simp
  · have hpos : 0 < size.toNat := Nat.pos_of_ne_zero fun h => hzero (BitVec.eq_of_toNat_eq h)
    have hone : (1 : SizeT) ≤ size := BitVec.le_def.mpr hpos
    have hpred : (size - 1).toNat = size.toNat - 1 := BitVec.toNat_sub_of_le hone
    refine iff_of_true ?_ hzero
    by_cases hle : size.toNat ≤ n
    · rw [if_pos (hge.mpr hle), hpred]
      omega
    · rw [if_neg (hge.not.mpr hle), hval]
      omega

-- `scnprintf` and `vscnprintf` return how many characters of the text are in the buffer, but for
-- a buffer of size 0, where they return -1.
theorem scnprintf_counts_iff {mem : Mem 32} {buf : Adr} {size : SizeT} {fmt : List Byte}
    {args : VaList} {p : Printed} (hsize : size.slt 0 = false)
    (hp : printed 0 (formatPieces fmt args) mem = .ok p)
    (hused : Beside buf (min (room buf size) p.text.length) p.used)
    (hfits : buf.toNat + p.text.length < 2 ^ 32) :
    ∃ r, scnprintf mem buf size fmt args =
        .ok (r, stored p.mem buf (room buf size) p.text) ∧
      vscnprintf mem buf size fmt args = scnprintf mem buf size fmt args ∧
      (r.toNat = min p.text.length (size.toNat - 1) ↔ size ≠ 0) ∧ (size = 0 → r = -1) := by
  refine ⟨_, ?_, rfl, scnprintf_count p.text.length size (by omega), ?_⟩
  · rw [scnprintf, vsnprintf_eq hsize hp hused hfits, Outcome.ok_bind]
  · rintro rfl
    exact if_pos (BitVec.le_def.mpr (Nat.zero_le _))

-- `a` printed into no bytes at all.
theorem scnprintf_counts_empty : ∃ m,
    scnprintf (fun _ => 0) 0x1000 0 [char 'a'] (fun _ => 0) = .ok (-1, m) := by
  have hp : printed 0 (formatPieces [char 'a'] fun _ => 0) (fun _ => 0) =
      .ok ⟨[char 'a'], [], fun _ => 0⟩ := rfl
  have hused : Beside 0x1000 (min (room 0x1000 0) 1) [] := fun _ h => absurd h List.not_mem_nil
  obtain ⟨r, hr, -, -, hlast⟩ := scnprintf_counts_iff (by decide) hp hused (by decide)
  exact ⟨_, hlast rfl ▸ hr⟩

end Lmosem
