import Mathlib.Data.List.TakeWhile
import Lana.User.Refusals

/-!
# Requests from `fbctl`

The tool `fbctl` turns its command line into a `struct lananlmsg`, a command code and a buffer of
1500 bytes with the arguments in the fields of one of five structures; `__userctl_rcv` reads the
code and the handlers read the fields.  A request arrives as it was made unless it was one to
replace a block and drop its private data (`fbctl_arrives_iff`): `main` compares the command word
with `replace` before it compares it with `replace-drop`, and only as far as the shorter word goes.
-/

namespace Lana

/-! ## Strings in a buffer -/

theorem ascii_nonzero {s : String} (h : (ascii s).all (fun b => b ≠ 0) = true) :
    ∀ b ∈ ascii s, b ≠ 0 :=
  fun b hb => of_decide_eq_true (List.all_eq_true.1 h b hb)

/-- `strncmp(s, t, n) == 0`; the end of a list is the terminator. -/
def strncmpZero : ℕ → List UInt8 → List UInt8 → Bool
  | 0, _, _ => true
  | _ + 1, [], [] => true
  | n + 1, a :: s, b :: t => a == b && strncmpZero n s t
  | _ + 1, _, _ => false

/-- `USERCTL_BUF_LEN`. -/
def userctlBufLen : ℕ := 1500

/-- `lmsg.buff`; only the first `userctlBufLen` bytes are there. -/
abbrev Buff := ℕ → UInt8

namespace Buff

/-- `memset(&lmsg, 0, sizeof(lmsg))`. -/
def zero : Buff := fun _ => 0

/-- `strlcpy(buff + off, src, size)`. -/
def strlcpy (buff : Buff) (off : ℕ) (src : CStr) (size : ℕ) : Buff := fun i =>
  let len := if src.strlen ≥ size then size - 1 else src.strlen
  if off ≤ i ∧ i < off + len then src.bytes.getD (i - off) 0
  else if i = off + len then 0
  else buff i

/-- The bytes from `off` to the end of the buffer. -/
def rest (buff : Buff) (off : ℕ) : List UInt8 :=
  (List.range (userctlBufLen - off)).map fun i => buff (off + i)

theorem nonzero_takeWhile {l : List UInt8} : ∀ b ∈ l.takeWhile (· ≠ 0), b ≠ 0 := by
  intro b hb
  simpa using List.mem_takeWhile_imp hb

/-- The string at `off`, if it ends in the buffer. -/
def readStr (buff : Buff) (off : ℕ) : Option CStr :=
  let str := (buff.rest off).takeWhile (· ≠ 0)
  if h : str.length < userctlBufLen - off then
    some ⟨str, nonzero_takeWhile, h.trans_le ((Nat.sub_le _ _).trans (by decide))⟩
  else none

/-- A block name at `off`, if it ends in its field. -/
def readName (buff : Buff) (off : ℕ) : Option Name :=
  (buff.readStr off).bind fun s => if h : s.strlen < fbnamsiz then some ⟨s, h⟩ else none

/-- The string `s` and its terminator stand at `off`. -/
def Holds (buff : Buff) (off : ℕ) (s : CStr) : Prop :=
  ∀ i ≤ s.strlen, buff (off + i) = s.bytes.getD i 0

section Holds

variable {buff : Buff} {off : ℕ} {s : CStr}

theorem Holds.rest (h : Holds buff off s) (hoff : off + s.strlen < userctlBufLen) :
    ∃ l, buff.rest off = s.bytes ++ 0 :: l := by
  obtain ⟨k, hk⟩ : ∃ k, userctlBufLen - off = s.strlen + (k + 1) :=
    ⟨userctlBufLen - off - s.strlen - 1, by omega⟩
  have hstr : ((List.range s.strlen).map fun i => buff (off + i)) = s.bytes := by
    refine List.ext_getElem (by simp [CStr.strlen]) fun i hi hi' => ?_
    rw [List.getElem_map, List.getElem_range, h i (le_of_lt hi'), List.getD_eq_getElem _ _ hi']
  have hend : buff (off + (s.strlen + 0)) = 0 := by
    rw [Nat.add_zero, h _ le_rfl]
    exact List.getD_eq_default _ _ le_rfl
  unfold Buff.rest
  rw [hk, List.range_add, List.map_append, hstr, List.range_succ_eq_map, List.map_cons, List.map_cons,
    hend]
  exact ⟨_, rfl⟩

theorem readStr_eq (h : Holds buff off s) (hoff : off + s.strlen < userctlBufLen) :
    buff.readStr off = some s := by
  obtain ⟨l, hl⟩ := h.rest hoff
  have hstr : (buff.rest off).takeWhile (· ≠ 0) = s.bytes := by
    rw [hl, List.takeWhile_append_of_pos, List.takeWhile_cons_of_neg (by simp), List.append_nil]
    intro b hb
    simpa using s.nonzero b hb
  unfold readStr
  dsimp only
  have hlen : s.bytes.length < userctlBufLen - off := by
    show s.strlen < _
    omega
  rw [dif_pos (hstr ▸ hlen)]
  obtain ⟨bytes, hnz, hlt⟩ := s
  simp only [hstr]

theorem readName_eq {n : Name} (h : Holds buff off n) (hoff : off + fbnamsiz ≤ userctlBufLen) :
    buff.readName off = some n := by
  have hn := n.2
  unfold readName
  rw [readStr_eq h (by omega), Option.bind_some, dif_pos hn]

/-- What `strlcpy` has written. -/
theorem holds_strlcpy (buff : Buff) (off : ℕ) (src : CStr) {size : ℕ} (hsize : 0 < size) :
    Holds (buff.strlcpy off src size) off (Lana.strlcpy src size) := by
  have hlen : (Lana.strlcpy src size).strlen =
      if src.strlen ≥ size then size - 1 else src.strlen := by
    show (src.bytes.take (size - 1)).length = _
    rw [List.length_take]
    unfold CStr.strlen
    split_ifs <;> omega
  intro i hi
  unfold Buff.strlcpy
  dsimp only
  rw [← hlen]
  by_cases hlt : i < (Lana.strlcpy src size).strlen
  · rw [if_pos ⟨Nat.le_add_right .., by omega⟩, Nat.add_sub_cancel_left]
    have hi' : i < (src.bytes.take (size - 1)).length := hlt
    show _ = (src.bytes.take (size - 1)).getD i 0
    rw [List.getD_eq_getElem _ _ hi', List.getElem_take, List.getD_eq_getElem]
  · obtain rfl : i = (Lana.strlcpy src size).strlen := by omega
    rw [if_neg (by omega), if_pos rfl]
    exact (List.getD_eq_default _ _ le_rfl).symm

/-- A name is shorter than its field, so nothing of it is cut. -/
theorem holds_name (buff : Buff) (off : ℕ) (name : Name) :
    Holds (buff.strlcpy off name fbnamsiz) off name := by
  have hsize : 0 < fbnamsiz := by decide
  have h := holds_strlcpy buff off name hsize
  rwa [strlcpy_of_lt name.2] at h

/-- A write behind the string. -/
theorem Holds.strlcpy (h : Holds buff off s) {off' : ℕ} (hoff : off + s.strlen < off') (src : CStr)
    (size : ℕ) : Holds (buff.strlcpy off' src size) off s := by
  intro i hi
  unfold Buff.strlcpy
  dsimp only
  rw [if_neg (by omega), if_neg (by omega)]
  exact h i hi

theorem Holds.update (h : Holds buff off s) {j : ℕ} (hj : off + s.strlen < j) (b : UInt8) :
    Holds (Function.update buff j b) off s := by
  intro i hi
  rw [Function.update_of_ne (by omega)]
  exact h i hi

end Holds

end Buff

/-! ## The sender -/

/-- `struct lananlmsg`. -/
structure LanaNlMsg where
  cmd : UInt32
  buff : Buff

/-- `NETLINK_USERCTL_CMD_ADD` and its like. -/
def userctlCmdAdd : UInt32 := 1
def userctlCmdSet : UInt32 := 2
def userctlCmdRm : UInt32 := 3
def userctlCmdBind : UInt32 := 4
def userctlCmdUnbind : UInt32 := 5
def userctlCmdReplace : UInt32 := 6
def userctlCmdSubscribe : UInt32 := 7
def userctlCmdUnsubscribe : UInt32 := 8

/-- `sizeof(msg->option)`. -/
def optionSize : ℕ := userctlBufLen - fbnamsiz

/-- The buffer with two strings, a name and another one behind its field; `TYPNAMSIZ` is
`FBNAMSIZ`. -/
def twoFields (first second : CStr) (size : ℕ) : Buff :=
  (Buff.zero.strlcpy 0 first fbnamsiz).strlcpy fbnamsiz second size

/-- The functions that send two arguments in fields of `FBNAMSIZ` bytes; another number of arguments
prints the usage. -/
def doTuple (cmd : UInt32) : List CStr → Option LanaNlMsg
  | [first, second] => some ⟨cmd, twoFields first second fbnamsiz⟩
  | _ => none

def doAdd := doTuple userctlCmdAdd
def doBind := doTuple userctlCmdBind
def doUnbind := doTuple userctlCmdUnbind
def doSubscribe := doTuple userctlCmdSubscribe
def doUnsubscribe := doTuple userctlCmdUnsubscribe

/-- `do_set`. -/
def doSet : List CStr → Option LanaNlMsg
  | [name, option] => some ⟨userctlCmdSet, twoFields name option optionSize⟩
  | _ => none

/-- `do_rm`. -/
def doRm : List CStr → Option LanaNlMsg
  | [name] => some ⟨userctlCmdRm, Buff.zero.strlcpy 0 name fbnamsiz⟩
  | _ => none

/-- The offset of `drop_priv`. -/
def dropPrivOffset : ℕ := 2 * fbnamsiz

/-- `do_replace`. -/
def doReplace (drop : Bool) : List CStr → Option LanaNlMsg
  | [name1, name2] =>
    some ⟨userctlCmdReplace, Function.update (twoFields name1 name2 fbnamsiz) dropPrivOffset
      (if drop then 1 else 0)⟩
  | _ => none

/-- The words that `main` compares with, and what it does then. -/
inductive Word where
  | help
  | version
  | preload
  | add
  | set
  | rm
  | bind
  | unbind
  | replace
  | replaceDrop
  | subscribe
  | unsubscribe
  deriving DecidableEq

namespace Word

def text : Word → List UInt8
  | .help => ascii "help"
  | .version => ascii "version"
  | .preload => ascii "preload"
  | .add => ascii "add"
  | .set => ascii "set"
  | .rm => ascii "rm"
  | .bind => ascii "bind"
  | .unbind => ascii "unbind"
  | .replace => ascii "replace"
  | .replaceDrop => ascii "replace-drop"
  | .subscribe => ascii "subscribe"
  | .unsubscribe => ascii "unsubscribe"

/-- The message that is sent; `help`, `version` and `preload` send none. -/
def send (args : List CStr) : Word → Option LanaNlMsg
  | .help | .version | .preload => none
  | .add => doAdd args
  | .set => doSet args
  | .rm => doRm args
  | .bind => doBind args
  | .unbind => doUnbind args
  | .replace => doReplace false args
  | .replaceDrop => doReplace true args
  | .subscribe => doSubscribe args
  | .unsubscribe => doUnsubscribe args

/-- The comparisons of `main`, in order. -/
def chain : List Word :=
  [.help, .version, .preload, .add, .set, .rm, .bind, .unbind, .replace, .replaceDrop, .subscribe,
    .unsubscribe]

end Word

/-- The word that `main` takes an argument for: the first one with
`!strncmp(word, arg, strlen(word))`. -/
def commandOf (arg : List UInt8) : Option Word :=
  Word.chain.find? fun w => strncmpZero w.text.length w.text arg

/-- `main`, run by root; without a message it prints the usage or has loaded a module. -/
def fbctlMain : List CStr → Option LanaNlMsg
  | _ :: word :: args => (commandOf word.bytes).bind (Word.send args)
  | _ => none

/-! ## The receiver -/

/-- `sizeof(struct lananlmsg)`. -/
def lanaNlMsgSize : ℕ := 4 + userctlBufLen

/-- `NLMSG_LENGTH`. -/
def nlmsgLength (len : ℕ) : ℕ := len + 16

/-- `NLMSG_SPACE`: rounded up to four bytes. -/
def nlmsgSpace (len : ℕ) : ℕ := (nlmsgLength len + 3) / 4 * 4

/-- `struct lananlmsg_rm`: a name. -/
def readRm {β : Type*} (buff : Buff) (f : Name → β) : Option β := (buff.readName 0).map f

/-- `struct lananlmsg_add` and `struct lananlmsg_set`: a name and a string. -/
def readAdd {β : Type*} (buff : Buff) (f : Name → CStr → β) : Option β :=
  (buff.readName 0).bind fun n => (buff.readStr fbnamsiz).map (f n)

/-- `struct lananlmsg_tuple` and the beginning of `struct lananlmsg_replace`: two names. -/
def readTuple {β : Type*} (buff : Buff) (f : Name → Name → β) : Option β :=
  (buff.readName 0).bind fun n => (buff.readName fbnamsiz).map (f n)

/-- The switch of `__userctl_rcv`, with the fields that the handlers read. -/
def readMsg (al : Alloc) (m : LanaNlMsg) : Option UserCmd :=
  if m.cmd = userctlCmdAdd then readAdd m.buff fun name type => .add name type al
  else if m.cmd = userctlCmdSet then readAdd m.buff .set
  else if m.cmd = userctlCmdReplace then
    readTuple m.buff fun name1 name2 => .replace name1 name2 (m.buff dropPrivOffset ≠ 0) al
  else if m.cmd = userctlCmdSubscribe then
    readTuple m.buff fun name1 name2 => .subscribe name1 name2 al
  else if m.cmd = userctlCmdUnsubscribe then readTuple m.buff .unsubscribe
  else if m.cmd = userctlCmdRm then readRm m.buff .rm
  else if m.cmd = userctlCmdBind then readTuple m.buff fun name1 name2 => .bind name1 name2 al
  else if m.cmd = userctlCmdUnbind then readTuple m.buff .unbind
  else none

/-- `__userctl_rcv` on a message of an administrator, up to the call of the handler. -/
def userctlRcv (al : Alloc) (len : ℕ) (m : LanaNlMsg) : Option UserCmd :=
  if len < nlmsgLength lanaNlMsgSize then none else readMsg al m

/-- What arrives of a command line: `send_netlink` sends the message with the length
`NLMSG_SPACE(sizeof(*lmsg))`. -/
def arrives (al : Alloc) (argv : List CStr) : Option UserCmd :=
  (fbctlMain argv).bind (userctlRcv al (nlmsgSpace lanaNlMsgSize))

/-! ## What arrives -/

/-- A documented command with its arguments.  The usage spells the form that drops the private data
`replace_drop`, `main` spells it `replace-drop` (`dash`). -/
inductive FbctlCmd where
  | add (name : Name) (type : CStr)
  | set (name : Name) (option : { s : CStr // s.strlen < optionSize })
  | rm (name : Name)
  | bind (name1 name2 : Name)
  | unbind (name1 name2 : Name)
  | replace (name1 name2 : Name)
  | replaceDrop (dash : Bool) (name1 name2 : Name)
  | subscribe (name1 name2 : Name)
  | unsubscribe (name1 name2 : Name)

namespace FbctlCmd

def word : FbctlCmd → CStr
  | .add _ _ => ⟨ascii "add", ascii_nonzero rfl, by decide⟩
  | .set _ _ => ⟨ascii "set", ascii_nonzero rfl, by decide⟩
  | .rm _ => ⟨ascii "rm", ascii_nonzero rfl, by decide⟩
  | .bind _ _ => ⟨ascii "bind", ascii_nonzero rfl, by decide⟩
  | .unbind _ _ => ⟨ascii "unbind", ascii_nonzero rfl, by decide⟩
  | .replace _ _ => ⟨ascii "replace", ascii_nonzero rfl, by decide⟩
  | .replaceDrop false _ _ => ⟨ascii "replace_drop", ascii_nonzero rfl, by decide⟩
  | .replaceDrop true _ _ => ⟨ascii "replace-drop", ascii_nonzero rfl, by decide⟩
  | .subscribe _ _ => ⟨ascii "subscribe", ascii_nonzero rfl, by decide⟩
  | .unsubscribe _ _ => ⟨ascii "unsubscribe", ascii_nonzero rfl, by decide⟩

def args : FbctlCmd → List CStr
  | .add name type => [name, type]
  | .set name option => [name, option]
  | .rm name => [name]
  | .bind name1 name2 | .unbind name1 name2 | .replace name1 name2 | .replaceDrop _ name1 name2
  | .subscribe name1 name2 | .unsubscribe name1 name2 => [name1, name2]

/-- The command line; `prog` is the name of the program. -/
def argv (prog : CStr) (c : FbctlCmd) : List CStr := prog :: c.word :: c.args

/-- The form that drops the private data. -/
def drops : FbctlCmd → Bool
  | .replaceDrop _ _ _ => true
  | _ => false

/-- The request, with `drop_priv` as given; of a type that does not fit its field the beginning. -/
def request (al : Alloc) (dropPriv : Bool) : FbctlCmd → UserCmd
  | .add name type => .add name (strlcpy type fbnamsiz) al
  | .set name option => .set name option
  | .rm name => .rm name
  | .bind name1 name2 => .bind name1 name2 al
  | .unbind name1 name2 => .unbind name1 name2
  | .replace name1 name2 | .replaceDrop _ name1 name2 => .replace name1 name2 dropPriv al
  | .subscribe name1 name2 => .subscribe name1 name2 al
  | .unsubscribe name1 name2 => .unsubscribe name1 name2

end FbctlCmd

section Fields

variable (name : Name) (second : CStr) (size : ℕ)

theorem holds_first : (twoFields name second size).Holds 0 name :=
  (Buff.holds_name Buff.zero 0 name).strlcpy (by rw [Nat.zero_add]; exact name.2) second size

theorem holds_second (name2 : Name) : (twoFields name name2 fbnamsiz).Holds fbnamsiz name2 :=
  Buff.holds_name _ fbnamsiz name2

theorem readName_first : (twoFields name second size).readName 0 = some name :=
  Buff.readName_eq (holds_first name second size) (by decide)

theorem readStr_second (hsize : 0 < size) (hfits : fbnamsiz + size ≤ userctlBufLen) :
    (twoFields name second size).readStr fbnamsiz = some (strlcpy second size) := by
  have hlen : (strlcpy second size).strlen ≤ size - 1 := List.length_take_le _ _
  exact Buff.readStr_eq (Buff.holds_strlcpy _ fbnamsiz second hsize) (by omega)

theorem readName_second (name2 : Name) :
    (twoFields name name2 fbnamsiz).readName fbnamsiz = some name2 :=
  Buff.readName_eq (holds_second name name2) (by decide)

variable {β : Type*}

theorem readAdd_eq (hsize : 0 < size) (hfits : fbnamsiz + size ≤ userctlBufLen)
    (f : Name → CStr → β) :
    readAdd (twoFields name second size) f = some (f name (strlcpy second size)) := by
  unfold readAdd
  rw [readName_first, Option.bind_some, readStr_second name second size hsize hfits, Option.map_some]

theorem readTuple_eq (name2 : Name) (f : Name → Name → β) :
    readTuple (twoFields name name2 fbnamsiz) f = some (f name name2) := by
  unfold readTuple
  rw [readName_first, Option.bind_some, readName_second, Option.map_some]

theorem readRm_eq (f : Name → β) :
    readRm (Buff.zero.strlcpy 0 name fbnamsiz) f = some (f name) := by
  unfold readRm
  rw [Buff.readName_eq (Buff.holds_name Buff.zero 0 name) (by decide), Option.map_some]

end Fields

theorem arrives_of_main {al : Alloc} {argv : List CStr} {m : LanaNlMsg}
    (h : fbctlMain argv = some m) : arrives al argv = readMsg al m := by
  have hlen : ¬ nlmsgSpace lanaNlMsgSize < nlmsgLength lanaNlMsgSize := by decide
  unfold arrives
  rw [h, Option.bind_some]
  unfold userctlRcv
  rw [if_neg hlen]

theorem readMsg_replace (al : Alloc) (name1 name2 : Name) (b : UInt8) :
    readMsg al ⟨userctlCmdReplace,
      Function.update (twoFields name1 name2 fbnamsiz) dropPrivOffset b⟩ =
        some (.replace name1 name2 (b ≠ 0) al) := by
  have h1 := name1.2
  have h2 := name2.2
  -- the flag stands behind both names
  have hname1 := Buff.readName_eq ((holds_first name1 name2 fbnamsiz).update (j := dropPrivOffset)
    (by unfold dropPrivOffset; omega) b) (by decide)
  have hname2 := Buff.readName_eq ((holds_second name1 name2).update (j := dropPrivOffset)
    (by unfold dropPrivOffset; omega) b) (by decide)
  have hmsg : readMsg al ⟨userctlCmdReplace,
      Function.update (twoFields name1 name2 fbnamsiz) dropPrivOffset b⟩ =
      readTuple (Function.update (twoFields name1 name2 fbnamsiz) dropPrivOffset b)
        fun n1 n2 => .replace n1 n2 (Function.update (twoFields name1 name2 fbnamsiz)
          dropPrivOffset b dropPrivOffset ≠ 0) al := rfl
  rw [hmsg, Function.update_self]
  unfold readTuple
  rw [hname1, Option.bind_some]
  exact congrArg (Option.map _) hname2

section Arrivals

variable {al : Alloc} {argv : List CStr} {cmd : UInt32}

theorem arrives_add {name : Name} {second : CStr} {size : ℕ} {f : Name → CStr → UserCmd}
    (hmain : fbctlMain argv = some ⟨cmd, twoFields name second size⟩)
    (hmsg : ∀ buff, readMsg al ⟨cmd, buff⟩ = readAdd buff f) (hsize : 0 < size)
    (hfits : fbnamsiz + size ≤ userctlBufLen) :
    arrives al argv = some (f name (strlcpy second size)) := by
  rw [arrives_of_main hmain, hmsg, readAdd_eq name second size hsize hfits]

theorem arrives_tuple {name1 name2 : Name} {f : Name → Name → UserCmd}
    (hmain : fbctlMain argv = some ⟨cmd, twoFields name1 name2 fbnamsiz⟩)
    (hmsg : ∀ buff, readMsg al ⟨cmd, buff⟩ = readTuple buff f) :
    arrives al argv = some (f name1 name2) := by
  rw [arrives_of_main hmain, hmsg, readTuple_eq]

theorem arrives_rm {name : Name}
    (hmain : fbctlMain argv = some ⟨userctlCmdRm, Buff.zero.strlcpy 0 name fbnamsiz⟩) :
    arrives al argv = some (.rm name) := by
  have hmsg : ∀ buff, readMsg al ⟨userctlCmdRm, buff⟩ = readRm buff .rm := fun _ => rfl
  rw [arrives_of_main hmain, hmsg, readRm_eq]

end Arrivals

/-- Every command arrives, a replacement always as one that keeps the private data. -/
theorem arrives_eq (al : Alloc) (prog : CStr) (c : FbctlCmd) :
    arrives al (c.argv prog) = some (c.request al false) := by
  cases c with
  | add name type =>
    exact arrives_add (f := fun n t => .add n t al) rfl (fun _ => rfl) (by decide) (by decide)
  | set name option =>
    have h : arrives al ((FbctlCmd.set name option).argv prog) =
        some (.set name (strlcpy option optionSize)) :=
      arrives_add rfl (fun _ => rfl) (by decide) (by decide)
    rw [strlcpy_of_lt option.2] at h
    exact h
  | rm name => exact arrives_rm rfl
  | bind name1 name2 => exact arrives_tuple (f := fun m n => .bind m n al) rfl fun _ => rfl
  | unbind name1 name2 => exact arrives_tuple rfl fun _ => rfl
  | replace name1 name2 => exact (arrives_of_main rfl).trans (readMsg_replace al name1 name2 0)
  | replaceDrop dash name1 name2 =>
    -- the word is taken for `replace`, with a dash as with an underscore
    cases dash
    · exact (arrives_of_main rfl).trans (readMsg_replace al name1 name2 0)
    · exact (arrives_of_main rfl).trans (readMsg_replace al name1 name2 0)
  | subscribe name1 name2 =>
    exact arrives_tuple (f := fun m n => .subscribe m n al) rfl fun _ => rfl
  | unsubscribe name1 name2 => exact arrives_tuple rfl fun _ => rfl

/-- **Requests from `fbctl`.**  A documented command arrives at the handlers as the operation that
was asked for, with the names in their roles, the option and `drop_priv` as asked for, exactly if it
is not the form of `replace` that drops the private data. -/
theorem fbctl_arrives_iff (al : Alloc) (prog : CStr) (c : FbctlCmd) :
    arrives al (c.argv prog) = some (c.request al c.drops) ↔ c.drops = false := by
  rw [arrives_eq]
  constructor
  · intro h
    cases c with
    | replaceDrop dash name1 name2 => cases h
    | _ => rfl
  · intro h
    rw [h]

/-- Both spellings of the form that drops the private data arrive as the form that keeps it. -/
theorem fbctl_drop_lost :
    (arrives {} ((FbctlCmd.replaceDrop false nameA nameB).argv nameC) =
        some (.replace nameA nameB false {}) ∧
      arrives {} ((FbctlCmd.replaceDrop true nameA nameB).argv nameC) =
        some (.replace nameA nameB false {})) ∧
      (UserCmd.replace nameA nameB false {}) ≠
        (FbctlCmd.replaceDrop false nameA nameB).request {} true :=
  ⟨⟨arrives_eq {} nameC (.replaceDrop false nameA nameB),
    arrives_eq {} nameC (.replaceDrop true nameA nameB)⟩, nofun⟩

end Lana
