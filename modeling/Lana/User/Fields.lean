import Lana.Library.Scan
import Lana.User.Fbctl

/-!
# Strings of control messages

The handlers of `xt_user.c` take names, a type and an option as strings from fields of fixed size in
the buffer of a message, and hand them on to functions that read up to a zero: the crit-bit lookup,
`init_fblock` and `__fblock_set_option`.  None of them looks at the size of a field, and
`__userctl_rcv` looks at the length of the message alone.

`userctlRcvReads` are the loops over strings that a message leads to in a state.  They stay in the
fields whatever blocks there are exactly when each field of the message holds a zero
(`control_reads_iff`).
-/

namespace Lana

open Scan

/-! ## Fields and loops -/

/-- A field of a structure in the buffer. -/
structure MsgField where
  off : ℕ
  size : ℕ

/-- The offset behind the field. -/
def MsgField.stop (f : MsgField) : ℕ := f.off + f.size

/-- `name` and `name1`. -/
def nameField : MsgField := ⟨0, fbnamsiz⟩

/-- `type`; `TYPNAMSIZ` is `FBNAMSIZ`. -/
def typeField : MsgField := ⟨fbnamsiz, fbnamsiz⟩

/-- `name2`. -/
def name2Field : MsgField := ⟨fbnamsiz, fbnamsiz⟩

/-- `option`. -/
def optionField : MsgField := ⟨fbnamsiz, optionSize⟩

/-- A loop over a string: the field it is for, the memory, where it starts and the bytes that it
goes on after. -/
structure StrRead where
  field : MsgField
  mem : List UInt8
  start : ℕ
  goesOn : UInt8 → Bool

namespace StrRead

/-- `strlen` of what starts at `start`.  `strcmp` and the inner nodes of the crit-bit tree look at
no other bytes. -/
def strlen (f : MsgField) (mem : List UInt8) (start : ℕ) : StrRead := ⟨f, mem, start, (· ≠ 0)⟩

/-- The string ends at a zero in its field. -/
def Ends (r : StrRead) : Prop :=
  ∃ q, (skipWhile (· ≠ 0) (.ofList r.mem r.start)).result = some q ∧
    r.field.off ≤ q.off ∧ q.off < r.field.stop

/-- The loop looks at bytes of the field only. -/
def Inside (r : StrRead) : Prop :=
  ∀ i ∈ (skipWhile r.goesOn (.ofList r.mem r.start)).reads, r.field.off ≤ i ∧ i < r.field.stop

end StrRead

/-- The string at an offset; there is none if the loop runs out of the memory. -/
def stringAt (mem : List UInt8) (off : ℕ) : Option CStr :=
  let str := (mem.drop off).takeWhile (· ≠ 0)
  if h : str.length < (mem.drop off).length ∧ str.length < 2 ^ 32 then
    some ⟨str, Buff.nonzero_takeWhile, h.2⟩
  else none

/-! ## The handlers -/

/-- A string is looked up in a crit-bit tree, and what happens next depends on the string. -/
def lookupReads (mem : List UInt8) (f : MsgField) (next : CStr → List StrRead) : List StrRead :=
  .strlen f mem f.off :: (stringAt mem f.off).elim [] next

/-- The types whose event handler prints the key and the value of an option. -/
def FbType.printsOption : FbType → Bool
  | .dummy | .counter | .tee => true
  | .bpf | .eth | .ethvlink | .pflana => false

/-- `*val != '=' && *val != '\0'`. -/
def beforeEquals (b : UInt8) : Bool := b ≠ 61 && b ≠ 0

/-- `__fblock_set_option`: the byte `=` is looked for, and overwritten when it is found. -/
def fblockSetOptionReads (s : State) (fb : Addr) (mem : List UInt8) : List StrRead :=
  ⟨optionField, mem, optionField.off, beforeEquals⟩ ::
    (skipWhile beforeEquals (.ofList mem optionField.off)).result.elim [] fun val =>
      if mem[val.off]? = some 61 ∧ (s.ops fb).printsOption = true then
        let mem := mem.set val.off 0
        [.strlen optionField mem optionField.off, .strlen optionField mem (val.off + 1)]
      else []

/-- `userctl_add`: the constructor copies the name once it has its memory. -/
def userctlAddReads (al : Alloc) (s : State) (mem : List UInt8) : List StrRead :=
  lookupReads mem nameField fun name =>
    if (s.lookup name).isSome then []
    else lookupReads mem typeField fun type =>
      if (critbitGet Factory.type fbmap type).isSome ∧ al.fblock = true ∧ al.percpu = true then
        [.strlen nameField mem nameField.off]
      else []

/-- `userctl_set`. -/
def userctlSetReads (s : State) (mem : List UInt8) : List StrRead :=
  lookupReads mem nameField fun name =>
    (s.lookup name).elim [] fun fb => fblockSetOptionReads s fb mem

/-- `userctl_remove`. -/
def userctlRemoveReads (mem : List UInt8) : List StrRead := lookupReads mem nameField fun _ => []

/-- `userctl_replace`: the first block must have a factory. -/
def userctlReplaceReads (s : State) (mem : List UInt8) : List StrRead :=
  lookupReads mem nameField fun name1 =>
    (s.lookup name1).elim [] fun fb1 =>
      if (s.factory fb1).isSome then lookupReads mem name2Field fun _ => [] else []

/-- `userctl_subscribe`, `userctl_unsubscribe`, `userctl_bind` and `userctl_unbind`. -/
def userctlTupleReads (s : State) (mem : List UInt8) : List StrRead :=
  lookupReads mem nameField fun name1 =>
    (s.lookup name1).elim [] fun _ => lookupReads mem name2Field fun _ => []

/-- The structures that the handlers take the buffer for. -/
inductive Payload where
  | add
  | set
  | rm
  | tuple
  | replace

namespace Payload

/-- The string fields of a structure. -/
def fields : Payload → List MsgField
  | add => [nameField, typeField]
  | set => [nameField, optionField]
  | rm => [nameField]
  | tuple => [nameField, name2Field]
  | replace => [nameField, name2Field]

/-- The loops over strings of the handlers. -/
def reads (al : Alloc) (s : State) (mem : List UInt8) : Payload → List StrRead
  | add => userctlAddReads al s mem
  | set => userctlSetReads s mem
  | rm => userctlRemoveReads mem
  | tuple => userctlTupleReads s mem
  | replace => userctlReplaceReads s mem

end Payload

/-- The switch of `__userctl_rcv`. -/
def payloadOf (cmd : UInt32) : Option Payload :=
  if cmd = userctlCmdAdd then some .add
  else if cmd = userctlCmdSet then some .set
  else if cmd = userctlCmdReplace then some .replace
  else if cmd = userctlCmdSubscribe then some .tuple
  else if cmd = userctlCmdUnsubscribe then some .tuple
  else if cmd = userctlCmdRm then some .rm
  else if cmd = userctlCmdBind then some .tuple
  else if cmd = userctlCmdUnbind then some .tuple
  else none

/-- The buffer and what is behind it in the memory. -/
def LanaNlMsg.mem (m : LanaNlMsg) (behind : List UInt8) : List UInt8 := m.buff.rest 0 ++ behind

/-- The loops over strings of `__userctl_rcv` on a message of an administrator, with `behind` in the
memory behind it. -/
def userctlRcvReads (al : Alloc) (s : State) (len : ℕ) (m : LanaNlMsg) (behind : List UInt8) :
    List StrRead :=
  if len < nlmsgLength lanaNlMsgSize then []
  else (payloadOf m.cmd).elim [] (Payload.reads al s (m.mem behind))

/-- The field holds a zero. -/
def MsgField.Terminated (f : MsgField) (buff : Buff) : Prop :=
  ∃ i, f.off ≤ i ∧ i < f.stop ∧ buff i = 0

/-- Each string field of the message holds a zero. -/
def LanaNlMsg.Terminated (m : LanaNlMsg) : Prop :=
  ∀ p, payloadOf m.cmd = some p → ∀ f ∈ p.fields, f.Terminated m.buff

/-- The field holds a zero in the memory. -/
def MsgField.HasZero (f : MsgField) (mem : List UInt8) : Prop :=
  ∃ i, f.off ≤ i ∧ i < f.stop ∧ mem[i]? = some 0

/-! ## Single loops -/

namespace StrRead

/-- The loop starts in its field, the field is in the memory, and a zero stops it. -/
structure Placed (r : StrRead) : Prop where
  start : r.field.off ≤ r.start
  stop : r.field.stop ≤ r.mem.length
  zero : r.goesOn 0 = false

variable {r : StrRead}

theorem Placed.ends_iff (h : r.Placed) :
    r.Ends ↔ ∃ i, r.start ≤ i ∧ i < r.field.stop ∧ r.mem[i]? = some 0 := by
  constructor
  · rintro ⟨q, hq, -, hlt⟩
    obtain ⟨hle, ⟨b, hb, hstop⟩, -⟩ := skipWhile_ofList_eq_some hq
    obtain rfl : b = 0 := by simpa using hstop
    exact ⟨q.off, hle, hlt, hb⟩
  · rintro ⟨i, hle, hlt, hi⟩
    obtain ⟨q, hq, hqlt⟩ :=
      (skipWhile_ofList_stops_iff (c := (· ≠ 0))).2 ⟨i, hle, hlt, 0, hi, rfl⟩
    exact ⟨q, hq, h.start.trans (skipWhile_ofList_eq_some hq).1, hqlt⟩

theorem Placed.inside_iff (h : r.Placed) :
    r.Inside ↔
      ∃ i, r.start ≤ i ∧ i < r.field.stop ∧ ∃ b, r.mem[i]? = some b ∧ r.goesOn b = false := by
  have hstop : r.field.stop ≤ (Ptr.ofList r.mem r.start).stop :=
    h.stop.trans (Ptr.length_le_stop _ _)
  refine Iff.trans ?_ (((covers_skipWhile r.goesOn _).reads_lt_iff hstop).trans
    skipWhile_ofList_stops_iff)
  constructor
  · exact fun hin i hi => (hin i hi).2
  · exact fun hlt i hi => ⟨h.start.trans (le_of_mem_skipFrom hi), hlt i hi⟩

theorem Placed.inside_of_ends (h : r.Placed) (hends : r.Ends) : r.Inside := by
  obtain ⟨i, hle, hlt, hi⟩ := h.ends_iff.1 hends
  exact h.inside_iff.2 ⟨i, hle, hlt, 0, hi, h.zero⟩

section Strlen

variable {f : MsgField} {mem : List UInt8} {start : ℕ}

theorem placed_strlen (hf : f.stop ≤ userctlBufLen) (hmem : userctlBufLen ≤ mem.length)
    (hstart : f.off ≤ start) : (strlen f mem start).Placed :=
  ⟨hstart, hf.trans hmem, rfl⟩

/-- `strlen` stays in the field exactly when the string ends there. -/
theorem Placed.strlen_inside_iff (h : (strlen f mem start).Placed) :
    (strlen f mem start).Inside ↔ ∃ i, start ≤ i ∧ i < f.stop ∧ mem[i]? = some 0 := by
  rw [h.inside_iff]
  refine exists_congr fun i => and_congr_right fun _ => and_congr_right fun _ => ?_
  simp [strlen]

end Strlen

end StrRead

/-! ## The loops of a message -/

section Handlers

variable {P : StrRead → Prop} {mem : List UInt8} {s : State}

theorem forall_lookupReads {f : MsgField} {next : CStr → List StrRead}
    (h : P (.strlen f mem f.off)) (hnext : ∀ str, ∀ r ∈ next str, P r) :
    ∀ r ∈ lookupReads mem f next, P r := by
  intro r hr
  rcases List.mem_cons.1 hr with rfl | hr
  · exact h
  · cases hstr : stringAt mem f.off with
    | none => rw [hstr] at hr; cases hr
    | some str => rw [hstr] at hr; exact hnext str r hr

theorem forall_elim {α β : Type*} {o : Option α} {f : α → List β} {Q : β → Prop}
    (h : ∀ a, ∀ r ∈ f a, Q r) : ∀ r ∈ o.elim [] f, Q r := by
  cases o with
  | none => exact fun _ hr => nomatch hr
  | some a => exact h a

theorem forall_addReads (al : Alloc) (hname : P (.strlen nameField mem nameField.off))
    (htype : P (.strlen typeField mem typeField.off)) :
    ∀ r ∈ userctlAddReads al s mem, P r := by
  refine forall_lookupReads hname fun name => ?_
  split_ifs
  · exact fun _ hr => nomatch hr
  · refine forall_lookupReads htype fun type => ?_
    split_ifs
    · exact List.forall_mem_singleton.2 hname
    · exact fun _ hr => nomatch hr

theorem forall_replaceReads (hname : P (.strlen nameField mem nameField.off))
    (hname2 : P (.strlen name2Field mem name2Field.off)) :
    ∀ r ∈ userctlReplaceReads s mem, P r := by
  refine forall_lookupReads hname fun name1 => forall_elim fun fb1 => ?_
  split_ifs
  · exact forall_lookupReads hname2 fun _ _ hr => nomatch hr
  · exact fun _ hr => nomatch hr

theorem forall_tupleReads (hname : P (.strlen nameField mem nameField.off))
    (hname2 : P (.strlen name2Field mem name2Field.off)) :
    ∀ r ∈ userctlTupleReads s mem, P r :=
  forall_lookupReads hname fun _ => forall_elim fun _ =>
    forall_lookupReads hname2 fun _ _ hr => nomatch hr

/-- The rule for the loops of a handler: they run over the string fields, from the beginning or as
`__fblock_set_option` does. -/
theorem Payload.forall_reads (p : Payload) (al : Alloc)
    (hstr : ∀ f ∈ p.fields, P (.strlen f mem f.off))
    (hopt : optionField ∈ p.fields → ∀ fb, ∀ r ∈ fblockSetOptionReads s fb mem, P r) :
    ∀ r ∈ p.reads al s mem, P r := by
  cases p with
  | add => exact forall_addReads al (hstr _ (by simp [fields])) (hstr _ (by simp [fields]))
  | set =>
    exact forall_lookupReads (hstr _ (by simp [fields])) fun _ =>
      forall_elim (hopt (by simp [fields]))
  | rm => exact forall_lookupReads (hstr _ (by simp [fields])) fun _ _ hr => nomatch hr
  | tuple => exact forall_tupleReads (hstr _ (by simp [fields])) (hstr _ (by simp [fields]))
  | replace => exact forall_replaceReads (hstr _ (by simp [fields])) (hstr _ (by simp [fields]))

end Handlers

/-! ## Options -/

section Options

variable {mem : List UInt8} {s : State} {fb : Addr}

theorem optionField_stop : optionField.stop = userctlBufLen := by decide

/-- The loops of `__fblock_set_option`: the search for `=`, and over the key and the value if it was
found and they are printed. -/
theorem mem_fblockSetOptionReads {r : StrRead} (hr : r ∈ fblockSetOptionReads s fb mem) :
    r = ⟨optionField, mem, optionField.off, beforeEquals⟩ ∨
      ∃ v, optionField.off ≤ v ∧ mem[v]? = some 61 ∧
        (∀ i, optionField.off ≤ i → mem[i]? = some 0 → v < i) ∧
        (r = .strlen optionField (mem.set v 0) optionField.off ∨
          r = .strlen optionField (mem.set v 0) (v + 1)) := by
  rcases List.mem_cons.1 hr with rfl | hr
  · exact .inl rfl
  right
  cases hval : (skipWhile beforeEquals (.ofList mem optionField.off)).result with
  | none => rw [hval] at hr; cases hr
  | some val =>
    rw [hval, Option.elim_some] at hr
    split_ifs at hr with hprint
    · refine ⟨val.off, (skipWhile_ofList_eq_some hval).1, hprint.1, fun i hle hi => ?_, ?_⟩
      · -- the search stops at a zero, and it stopped at `=`
        obtain ⟨q, hq, hlt⟩ := (skipWhile_ofList_stops_iff (c := beforeEquals)).2
          ⟨i, hle, Nat.lt_succ_self i, 0, hi, rfl⟩
        obtain rfl := Option.some.inj (hval.symm.trans hq)
        refine lt_of_le_of_ne (Nat.le_of_lt_succ hlt) ?_
        rintro rfl
        rw [hprint.1] at hi
        cases hi
      · simpa using hr
    · cases hr

theorem fblockSetOptionReads_placed (hmem : userctlBufLen ≤ mem.length) :
    ∀ r ∈ fblockSetOptionReads s fb mem, r.Placed := by
  intro r hr
  rcases mem_fblockSetOptionReads hr with rfl | ⟨v, hle, -, -, hr⟩
  · exact ⟨le_rfl, hmem, rfl⟩
  · have hset : userctlBufLen ≤ (mem.set v 0).length := by rwa [List.length_set]
    rcases hr with rfl | rfl
    · exact StrRead.placed_strlen (le_of_eq optionField_stop) hset le_rfl
    · exact StrRead.placed_strlen (le_of_eq optionField_stop) hset (by omega)

theorem fblockSetOptionReads_ends (hmem : userctlBufLen ≤ mem.length)
    (hzero : optionField.HasZero mem) : ∀ r ∈ fblockSetOptionReads s fb mem, r.Ends := by
  obtain ⟨i, hoff, hstop, hi⟩ := hzero
  intro r hr
  rw [(fblockSetOptionReads_placed hmem r hr).ends_iff]
  rcases mem_fblockSetOptionReads hr with rfl | ⟨v, hle, hv, hbefore, hr⟩
  · exact ⟨i, hoff, hstop, hi⟩
  · have hvi := hbefore i hoff hi
    rcases hr with rfl | rfl
    · -- the key ends where `=` was
      refine ⟨v, hle, hvi.trans hstop, List.getElem?_set_self ?_⟩
      exact (List.getElem?_eq_some_iff.1 hv).1
    · refine ⟨i, hvi, hstop, ?_⟩
      show (mem.set v 0)[i]? = some 0
      rw [List.getElem?_set_ne (by omega)]
      exact hi

/-- When the value is printed, the loops stay in the field only if there is a zero. -/
theorem hasZero_of_fblockSetOptionReads (hmem : userctlBufLen ≤ mem.length)
    (hprint : (s.ops fb).printsOption = true)
    (h : ∀ r ∈ fblockSetOptionReads s fb mem, r.Inside) : optionField.HasZero mem := by
  have hplaced : ∀ r ∈ fblockSetOptionReads s fb mem, r.Placed := fblockSetOptionReads_placed hmem
  have hsearch := h _ List.mem_cons_self
  rw [(hplaced _ List.mem_cons_self).inside_iff] at hsearch
  dsimp only at hsearch
  obtain ⟨val, hval, hlt⟩ := skipWhile_ofList_stops_iff.2 hsearch
  obtain ⟨hle, ⟨b, hb, hstop⟩, -⟩ := skipWhile_ofList_eq_some hval
  by_cases hb0 : b = 0
  · exact ⟨val.off, hle, hlt, hb0 ▸ hb⟩
  obtain rfl : b = 61 := by simpa [beforeEquals, hb0] using hstop
  have hmemr : StrRead.strlen optionField (mem.set val.off 0) (val.off + 1) ∈
      fblockSetOptionReads s fb mem := by
    unfold fblockSetOptionReads
    rw [hval]
    simp [hb, hprint]
  obtain ⟨i, hi, histop, hzero⟩ := (hplaced _ hmemr).strlen_inside_iff.1 (h _ hmemr)
  rw [List.getElem?_set_ne (by omega)] at hzero
  exact ⟨i, by omega, histop, hzero⟩

end Options

/-! ## Messages -/

section Messages

variable {m : LanaNlMsg} {behind mem : List UInt8} {s : State} {p : Payload}

theorem LanaNlMsg.le_length_mem (m : LanaNlMsg) (behind : List UInt8) :
    userctlBufLen ≤ (m.mem behind).length := by
  unfold LanaNlMsg.mem Buff.rest
  rw [List.length_append, List.length_map, List.length_range]
  exact Nat.le_add_right _ _

theorem LanaNlMsg.getElem?_mem (m : LanaNlMsg) (behind : List UInt8) {i : ℕ}
    (hi : i < userctlBufLen) : (m.mem behind)[i]? = some (m.buff i) := by
  unfold LanaNlMsg.mem Buff.rest
  rw [List.getElem?_append_left (by simpa using hi), List.getElem?_map,
    List.getElem?_range (by simpa using hi), Option.map_some, Nat.zero_add]

theorem Payload.stop_le : ∀ (p : Payload), ∀ f ∈ p.fields, f.stop ≤ userctlBufLen := by
  rintro (_ | _ | _ | _ | _) <;> decide

/-- A field in the memory has a zero where the field in the buffer has one. -/
theorem hasZero_mem_iff {f : MsgField} (hf : f.stop ≤ userctlBufLen) :
    f.HasZero (m.mem behind) ↔ f.Terminated m.buff := by
  refine exists_congr fun i => and_congr_right fun _ => and_congr_right fun hi => ?_
  rw [m.getElem?_mem behind (hi.trans_le hf), Option.some.injEq]

theorem Payload.reads_placed (hmem : userctlBufLen ≤ mem.length) (al : Alloc) :
    ∀ r ∈ p.reads al s mem, r.Placed :=
  p.forall_reads al (fun f hf => StrRead.placed_strlen (p.stop_le f hf) hmem le_rfl)
    fun _ _ => fblockSetOptionReads_placed hmem

/-- With a zero in each field all strings end in their fields. -/
theorem Payload.reads_ends (hmem : userctlBufLen ≤ mem.length) (h : ∀ f ∈ p.fields, f.HasZero mem)
    (al : Alloc) (s : State) : ∀ r ∈ p.reads al s mem, r.Ends := by
  refine p.forall_reads al (fun f hf => ?_) fun hopt fb => ?_
  · rw [(StrRead.placed_strlen (p.stop_le f hf) hmem le_rfl).ends_iff]
    exact h f hf
  · exact fblockSetOptionReads_ends hmem (h _ hopt)

/-! ## Decoding

With a zero in each field a message is one of those that `readMsg` decodes. -/

theorem length_takeWhile_le {l : List UInt8} {j : ℕ} (h : l[j]? = some 0) :
    (l.takeWhile (· ≠ 0)).length ≤ j := by
  by_contra hlt
  rw [not_le] at hlt
  obtain ⟨hj, hzero⟩ := List.getElem?_eq_some_iff.1 h
  refine Buff.nonzero_takeWhile _ (List.getElem_mem hlt) ?_
  rw [(List.takeWhile_prefix _).getElem hlt, hzero]

theorem readStr_of_zero {buff : Buff} {off i : ℕ} (hoff : off ≤ i) (hi : i < userctlBufLen)
    (hzero : buff i = 0) : ∃ str, buff.readStr off = some str ∧ str.strlen ≤ i - off := by
  have hget : (buff.rest off)[i - off]? = some 0 := by
    unfold Buff.rest
    rw [List.getElem?_map, List.getElem?_range (by omega), Option.map_some,
      Nat.add_sub_cancel' hoff, hzero]
  have hlen := length_takeWhile_le hget
  unfold Buff.readStr
  dsimp only
  rw [dif_pos (by omega)]
  exact ⟨_, rfl, hlen⟩

theorem readName_of_zero {buff : Buff} {off : ℕ} (hoff : off + fbnamsiz ≤ userctlBufLen)
    (h : ∃ i, off ≤ i ∧ i < off + fbnamsiz ∧ buff i = 0) : ∃ n, buff.readName off = some n := by
  obtain ⟨i, hle, hlt, hzero⟩ := h
  obtain ⟨str, hstr, hlen⟩ := readStr_of_zero hle (hlt.trans_le hoff) hzero
  unfold Buff.readName
  rw [hstr, Option.bind_some, dif_pos (by omega)]
  exact ⟨_, rfl⟩

theorem readAdd_isSome {β : Type*} {buff : Buff} (g : Name → CStr → β) {f : MsgField}
    (hoff : f.off = fbnamsiz) (hf : f.stop ≤ userctlBufLen)
    (hname : nameField.Terminated buff) (h : f.Terminated buff) : (readAdd buff g).isSome := by
  obtain ⟨n, hn⟩ := readName_of_zero (by decide) hname
  obtain ⟨i, hle, hlt, hzero⟩ := h
  obtain ⟨str, hstr, -⟩ := readStr_of_zero (hoff ▸ hle) (hlt.trans_le hf) hzero
  unfold readAdd
  rw [show buff.readName 0 = some n from hn, Option.bind_some, hstr]
  rfl

theorem readTuple_isSome {β : Type*} {buff : Buff} (g : Name → Name → β)
    (hname : nameField.Terminated buff) (hname2 : name2Field.Terminated buff) :
    (readTuple buff g).isSome := by
  obtain ⟨n, hn⟩ := readName_of_zero (by decide) hname
  obtain ⟨n2, hn2⟩ := readName_of_zero (by decide) hname2
  unfold readTuple
  rw [show buff.readName 0 = some n from hn, Option.bind_some,
    show buff.readName fbnamsiz = some n2 from hn2]
  rfl

theorem LanaNlMsg.Terminated.readMsg_isSome (h : m.Terminated) (hcmd : payloadOf m.cmd = some p)
    (al : Alloc) : (readMsg al m).isSome := by
  have hfields := h p hcmd
  have hname : nameField.Terminated m.buff := hfields _ (by cases p <;> simp [Payload.fields])
  have hname2 : p = .tuple ∨ p = .replace → name2Field.Terminated m.buff := by
    rintro (rfl | rfl) <;> exact hfields _ (by simp [Payload.fields])
  revert hcmd
  unfold payloadOf readMsg
  split_ifs <;> intro hcmd <;> cases hcmd
  · exact readAdd_isSome _ rfl (by decide) hname (hfields typeField (by simp [Payload.fields]))
  · exact readAdd_isSome _ rfl (by decide) hname (hfields optionField (by simp [Payload.fields]))
  · exact readTuple_isSome _ hname (hname2 (.inr rfl))
  · exact readTuple_isSome _ hname (hname2 (.inl rfl))
  · exact readTuple_isSome _ hname (hname2 (.inl rfl))
  · obtain ⟨n, hn⟩ := readName_of_zero (by decide) hname
    unfold readRm
    rw [show m.buff.readName 0 = some n from hn]
    rfl
  · exact readTuple_isSome _ hname (hname2 (.inl rfl))
  · exact readTuple_isSome _ hname (hname2 (.inl rfl))

/-! ## What is read in some state -/

/-- A string that ends in the first field is a name. -/
theorem stringAt_of_hasZero (h : nameField.HasZero mem) :
    ∃ n : Name, stringAt mem nameField.off = some n.1 := by
  obtain ⟨i, -, hi, hzero⟩ := h
  have hlen : i < mem.length := (List.getElem?_eq_some_iff.1 hzero).1
  have hstr : ((mem.drop 0).takeWhile (· ≠ 0)).length ≤ i := length_takeWhile_le hzero
  have hshort : i < fbnamsiz := hi
  have hsmall : fbnamsiz < 2 ^ 32 := by decide
  refine ⟨⟨⟨(mem.drop 0).takeWhile (· ≠ 0), Buff.nonzero_takeWhile, by omega⟩, ?_⟩, ?_⟩
  · exact hstr.trans_lt hshort
  · show stringAt mem 0 = _
    unfold stringAt
    dsimp only
    rw [dif_pos ⟨hstr.trans_lt hlen, by omega⟩]

/-- A block of type `dummy` under the name `n` alone. -/
def addedDummy (n : Name) : State := run (.init oneCpu) [.add n Factory.dummy.type .ok]

/-- A block can be added under any name. -/
theorem lookup_addedDummy (n : Name) :
    ∃ a, (addedDummy n).lookup n = some a ∧ (addedDummy n).factory a = some .dummy ∧
      (addedDummy n).ops a = .dummy := by
  rcases userctlAdd_result (tables_init oneCpu) .ok n Factory.dummy.type with
    ⟨-, -, ⟨a, ha, -⟩ | ⟨hnone, -⟩⟩ | ⟨f, -, -, -, -, hok⟩ |
      ⟨f, hf, t, -, -, hC, -, hmap, -, -, hnames, heq⟩
  · cases ha
  · exact absurd hnone (by decide)
  · exact absurd rfl (hok rfl).2.2
  · obtain rfl := Factory.type_injective hf
    have hadded : addedDummy n = _ := heq
    have hent : t.fblmap (State.init oneCpu).nextIdp = some (State.init oneCpu).nextFblock := by
      rw [hmap, Function.update_self]
    refine ⟨(State.init oneCpu).nextFblock, ?_, ?_, ?_⟩ <;> rw [hadded]
    · show t.lookup n = _
      rw [lookup_eq, hnames, if_pos rfl]
      exact hent
    · simp only [Function.update_self]
    · rcases hC.new _ _ hent with h | ⟨-, -, -, -, -, -, hops, -⟩
      · cases h
      · exact hops

theorem mem_lookupReads {f : MsgField} {next : CStr → List StrRead} {str : CStr} {r : StrRead}
    (hstr : stringAt mem f.off = some str) (hr : r ∈ next str) : r ∈ lookupReads mem f next := by
  refine List.mem_cons_of_mem _ ?_
  rw [hstr]
  exact hr

theorem hasZero_of_strlen_inside {f : MsgField} (hmem : userctlBufLen ≤ mem.length)
    (hf : f.stop ≤ userctlBufLen) (h : (StrRead.strlen f mem f.off).Inside) : f.HasZero mem :=
  (StrRead.placed_strlen hf hmem le_rfl).strlen_inside_iff.1 h

/-- When the loops stay in the fields whatever blocks there are, each field holds a zero: the first
is read in any state, the second when the name is free (`userctl_add`) or known (all others). -/
theorem Payload.hasZero_of_inside (hmem : userctlBufLen ≤ mem.length)
    (h : ∀ cmds, ∀ r ∈ p.reads .ok (run (.init oneCpu) cmds) mem, r.Inside) :
    ∀ f ∈ p.fields, f.HasZero mem := by
  have hname : nameField.HasZero mem := by
    refine hasZero_of_strlen_inside hmem (by decide) (h [] _ ?_)
    cases p <;> exact List.mem_cons_self
  obtain ⟨n, hstr⟩ := stringAt_of_hasZero hname
  obtain ⟨a, hlookup, hfactory, hops⟩ := lookup_addedDummy n
  have hfree := h []
  have hknown : ∀ r ∈ p.reads .ok (addedDummy n) mem, r.Inside :=
    h [.add n Factory.dummy.type .ok]
  have hsecond : ∀ {f : MsgField}, f.HasZero mem → ∀ f' ∈ [nameField, f], f'.HasZero mem :=
    fun hf => List.forall_mem_cons.2 ⟨hname, List.forall_mem_singleton.2 hf⟩
  cases p with
  | add =>
    refine hsecond (hasZero_of_strlen_inside hmem (by decide) (hfree _ (mem_lookupReads hstr ?_)))
    exact List.mem_cons_self
  | set =>
    refine hsecond (hasZero_of_fblockSetOptionReads (s := addedDummy n) hmem
      (by rw [hops]; rfl) fun r hr => hknown r (mem_lookupReads hstr ?_))
    rw [hlookup]
    exact hr
  | rm => exact List.forall_mem_singleton.2 hname
  | tuple =>
    refine hsecond (hasZero_of_strlen_inside hmem (by decide) (hknown _ (mem_lookupReads hstr ?_)))
    rw [hlookup]
    exact List.mem_cons_self
  | replace =>
    refine hsecond (hasZero_of_strlen_inside hmem (by decide) (hknown _ (mem_lookupReads hstr ?_)))
    rw [hlookup, Option.elim_some, hfactory]
    exact List.mem_cons_self

end Messages

/-- **Strings of control messages.** For a message that passes the length check, all strings that
the handler reads end at a zero in their fields, whatever blocks there are and whatever is behind
the message, exactly when each string field of the message holds a zero; and the loops over the
strings look at no bytes beyond the fields exactly then. -/
theorem control_reads_iff (m : LanaNlMsg) {len : ℕ} (hlen : nlmsgLength lanaNlMsgSize ≤ len) :
    ((∀ online cmds al behind,
      ∀ r ∈ userctlRcvReads al (run (.init online) cmds) len m behind, r.Ends) ↔ m.Terminated) ∧
    ((∀ online cmds al behind,
      ∀ r ∈ userctlRcvReads al (run (.init online) cmds) len m behind, r.Inside) ↔
        m.Terminated) := by
  have hmem := m.le_length_mem
  unfold userctlRcvReads LanaNlMsg.Terminated
  simp only [if_neg (not_lt.2 hlen)]
  cases hp : payloadOf m.cmd with
  | none => simp
  | some p =>
    simp only [Option.elim_some, Option.some.injEq, forall_eq']
    have hzero : ∀ behind,
        (∀ f ∈ p.fields, f.HasZero (m.mem behind)) ↔ ∀ f ∈ p.fields, f.Terminated m.buff :=
      fun behind => forall₂_congr fun f hf => hasZero_mem_iff (p.stop_le f hf)
    have hends : (∀ f ∈ p.fields, f.Terminated m.buff) → ∀ online cmds al behind,
        ∀ r ∈ p.reads al (run (.init online) cmds) (m.mem behind), r.Ends :=
      fun h _ _ al behind => p.reads_ends (hmem behind) ((hzero behind).2 h) al _
    have hterm : (∀ cmds, ∀ r ∈ p.reads .ok (run (.init oneCpu) cmds) (m.mem []), r.Inside) →
        ∀ f ∈ p.fields, f.Terminated m.buff :=
      fun h => (hzero []).1 (p.hasZero_of_inside (hmem []) h)
    refine ⟨⟨fun h => hterm fun cmds r hr => ?_, hends⟩,
      ⟨fun h => hterm fun cmds => h oneCpu cmds .ok [], fun h online cmds al behind r hr => ?_⟩⟩
    · exact (Payload.reads_placed (hmem []) .ok r hr).inside_of_ends (h oneCpu cmds .ok [] r hr)
    · exact (Payload.reads_placed (hmem behind) al r hr).inside_of_ends
        (hends h online cmds al behind r hr)

/-- What `fbctl` sends for `bind a b`. -/
def bindMsg : LanaNlMsg := ⟨userctlCmdBind, twoFields nameA nameB fbnamsiz⟩

theorem control_reads_bind :
    nlmsgLength lanaNlMsgSize ≤ nlmsgSpace lanaNlMsgSize ∧
      ∀ online cmds al behind, ∀ r ∈ userctlRcvReads al (run (.init online) cmds)
        (nlmsgSpace lanaNlMsgSize) bindMsg behind, r.Ends ∧ r.Inside := by
  have hterm : bindMsg.Terminated := by
    rintro p hp f hf
    obtain rfl : p = .tuple := (Option.some.inj hp).symm
    have hf' : f = nameField ∨ f = name2Field := by simpa [Payload.fields] using hf
    rcases hf' with rfl | rfl
    · exact ⟨1, by decide, by decide, by decide⟩
    · exact ⟨17, by decide, by decide, by decide⟩
  obtain ⟨hends, hinside⟩ := control_reads_iff bindMsg
    (show nlmsgLength lanaNlMsgSize ≤ nlmsgSpace lanaNlMsgSize by decide)
  exact ⟨by decide, fun online cmds al behind r hr => ⟨hends.2 hterm online cmds al behind r hr,
    hinside.2 hterm online cmds al behind r hr⟩⟩

/-- A first name of 16 bytes without a zero: it runs on into the second name. -/
def runOnMsg : LanaNlMsg := ⟨userctlCmdBind, fun i => if i < 17 then 97 else 0⟩

theorem control_reads_run_on :
    nlmsgLength lanaNlMsgSize ≤ nlmsgSpace lanaNlMsgSize ∧
      ∃ r ∈ userctlRcvReads .ok (.init oneCpu) (nlmsgSpace lanaNlMsgSize) runOnMsg [],
        ¬ r.Ends ∧ ¬ r.Inside := by
  have hmem := runOnMsg.le_length_mem []
  have hplaced : (StrRead.strlen nameField (runOnMsg.mem []) nameField.off).Placed :=
    StrRead.placed_strlen (by decide) hmem le_rfl
  have hzero : ¬ nameField.HasZero (runOnMsg.mem []) := by
    rw [hasZero_mem_iff (by decide)]
    rintro ⟨i, -, hi, hbuff⟩
    have hlt : i < 17 := hi.trans (by decide)
    have h97 : runOnMsg.buff i = 97 := if_pos hlt
    rw [h97] at hbuff
    cases hbuff
  refine ⟨by decide, _, List.mem_cons_self, fun h => hzero (hplaced.ends_iff.1 h), fun h => ?_⟩
  exact hzero (hplaced.strlen_inside_iff.1 h)

end Lana
