import Lana.Fblock.Tables
import Lana.User.Commands

/-!
# PF_LANA sockets

`fb_pflana.c`: the table of the protocols of the family, and the creation of a socket.  A process
that leaves the choice of the protocol to the kernel needs `CAP_SYS_ADMIN` for a raw socket; one
that asks for the raw protocol by its number is not checked.  So a process without the capability
gets a raw socket exactly when it asks by the number and the protocol is registered, in the initial
network namespace and with memory for it (`raw_socket_iff`).  From the loading of the module on the
protocol is registered until it is unregistered itself (`tab_run_of_kept`).
-/

namespace Lana

/-! ## The table of protocols -/

/-- `LANA_PROTO_AUTO`. -/
def lanaProtoAuto : ℤ := 0

/-- `LANA_PROTO_RAW`. -/
def lanaProtoRaw : ℤ := 1

/-- `LANA_NPROTO`. -/
def lanaNproto : ℤ := 2

/-- The address of a `struct lana_protocol`. -/
abbrev LpAddr := ℕ

/-- `proto_tab`, and the field `protocol` of the objects that may stand in it. -/
structure ProtoTab where
  tab : ℤ → Option LpAddr
  protocol : LpAddr → ℤ
  /-- A `BUG_ON` was hit; nothing runs after it. -/
  panicked : Bool

namespace ProtoTab

/-- The table before the module is loaded, with the values the objects are defined with. -/
def init (protocol : LpAddr → ℤ) : ProtoTab := ⟨fun _ => none, protocol, false⟩

/-- `proto < 0 || proto >= LANA_NPROTO`. -/
def OutOfRange (proto : ℤ) : Prop := proto < 0 ∨ proto ≥ lanaNproto

instance (proto : ℤ) : Decidable (OutOfRange proto) :=
  inferInstanceAs (Decidable (proto < 0 ∨ proto ≥ lanaNproto))

end ProtoTab

open ProtoTab

/-- `pflana_proto_get`. -/
def pflanaProtoGet (t : ProtoTab) (proto : ℤ) : Option LpAddr :=
  if OutOfRange proto then none else t.tab proto

/-- `pflana_proto_register`, with what `proto_register` returns. -/
def pflanaProtoRegister (t : ProtoTab) (proto : ℤ) (protoRegister : Ret) :
    Option LpAddr → Ret × ProtoTab
  | none => (.err .EINVAL, t)
  | some lp =>
    if OutOfRange proto then (.err .EINVAL, t)
    else if (t.tab proto).isSome then (.err .EBUSY, t)
    else if protoRegister ≠ .ok then (protoRegister, t)
    else (.ok, { t with
      tab := Function.update t.tab proto (some lp)
      protocol := Function.update t.protocol lp proto })

/-- `pflana_proto_unregister`. -/
def pflanaProtoUnregister (t : ProtoTab) : Option LpAddr → ProtoTab
  | none => t
  | some lp =>
    if OutOfRange (t.protocol lp) then t
    else if t.tab (t.protocol lp) = none then t
    else if t.tab (t.protocol lp) ≠ some lp then { t with panicked := true }
    else { t with tab := Function.update t.tab (t.protocol lp) none }

/-- A call of one of the two functions. -/
inductive ProtoAct where
  | register (proto : ℤ) (lp : Option LpAddr) (protoRegister : Ret)
  | unregister (lp : Option LpAddr)

/-- The table after a call. -/
def ProtoAct.exec (t : ProtoTab) (a : ProtoAct) : ProtoTab :=
  if t.panicked then t
  else
    match a with
    | .register proto lp protoRegister => (pflanaProtoRegister t proto protoRegister lp).2
    | .unregister lp => pflanaProtoUnregister t lp

/-- The table after a sequence of calls. -/
def runProtos (t : ProtoTab) (acts : List ProtoAct) : ProtoTab := acts.foldl ProtoAct.exec t

/-- `lana_proto_raw`. -/
def lanaProtoRawLp : LpAddr := 0

/-- `init_fb_pflana`, with what `proto_register` and `sock_register` return. -/
def initFbPflana (t : ProtoTab) (protoRegister sockRegister : Ret) : Ret × ProtoTab :=
  let t := { t with tab := fun i => if OutOfRange i then t.tab i else none }
  match pflanaProtoRegister t lanaProtoRaw protoRegister (some lanaProtoRawLp) with
  | (.err e, t) => (.err e, t)
  | (.ok, t) =>
    match sockRegister with
    | .err e => (.err e, pflanaProtoUnregister t (some lanaProtoRawLp))
    | .ok => (.ok, t)

/-! ## The creation of a socket -/

/-- The error numbers of `lana_family_create`. -/
inductive SockErrno where
  | EAFNOSUPPORT
  | EPERM
  | EPROTONOSUPPORT
  | ENOMEM
  deriving DecidableEq

/-- `SOCK_RAW`. -/
def sockRaw : ℕ := 3

/-- A call of `lana_family_create`. -/
structure SocketCall where
  /-- `net_eq(net, &init_net)` -/
  initNet : Bool
  /-- `sock->type` -/
  type : ℕ
  protocol : ℤ
  /-- `sk_alloc` -/
  sk : Option ℕ
  /-- the address of the socket, as `lana_sk_init` prints it -/
  name : CStr
  /-- the outcomes of the allocations of `lana_sk_init` -/
  al : Alloc

/-- What is set in a new socket: the protocol whose operations it has, `sk_protocol`, `sk_type` and
its block. -/
structure LanaSock where
  lp : LpAddr
  protocol : ℤ
  type : ℕ
  fb : Addr
  deriving DecidableEq

/-- The choice of the protocol: `capable(CAP_SYS_ADMIN)` is asked for here only. -/
def selectProtocol (capable : Bool) (c : SocketCall) : Except SockErrno ℤ :=
  if c.protocol = lanaProtoAuto then
    if c.type = sockRaw then
      if capable then .ok lanaProtoRaw else .error .EPERM
    else .error .EPROTONOSUPPORT
  else .ok c.protocol

/-- `lana_family_create`. -/
def lanaFamilyCreate (capable : Bool) (t : ProtoTab) (s : State) (c : SocketCall) :
    Except SockErrno LanaSock × State :=
  if !c.initNet then (.error .EAFNOSUPPORT, s)
  else
    match selectProtocol capable c with
    | .error e => (.error e, s)
    | .ok protocol =>
      match pflanaProtoGet t protocol with
      | none => (.error .EPROTONOSUPPORT, s)
      | some lp =>
        match c.sk with
        | none => (.error .ENOMEM, s)
        | some sk =>
          match (fbPflanaBuildFblock c.al s c.name sk).1 with
          | none => (.error .ENOMEM, lanaSkInit c.al s c.name sk)
          | some fb => (.ok ⟨lp, protocol, c.type, fb⟩, lanaSkInit c.al s c.name sk)

/-! ## Who gets a raw socket -/

section Creation

variable {capable : Bool} {t : ProtoTab} {s : State} {c : SocketCall}

theorem pflanaProtoGet_raw (t : ProtoTab) : pflanaProtoGet t lanaProtoRaw = t.tab lanaProtoRaw :=
  if_neg (by decide)

/-- Without the capability the raw protocol is chosen only by its number. -/
theorem selectProtocol_raw_iff :
    selectProtocol false c = .ok lanaProtoRaw ↔ c.protocol = lanaProtoRaw := by
  unfold selectProtocol
  by_cases hauto : c.protocol = lanaProtoAuto
  · rw [if_pos hauto, hauto, if_neg Bool.false_ne_true]
    refine ⟨fun h => ?_, fun h => absurd h (by decide)⟩
    split_ifs at h
  · rw [if_neg hauto, Except.ok.injEq]

/-- The steps of a call that creates a socket. -/
theorem lanaFamilyCreate_eq_ok_iff {sock : LanaSock} :
    (lanaFamilyCreate capable t s c).1 = .ok sock ↔
      c.initNet = true ∧ selectProtocol capable c = .ok sock.protocol ∧
        pflanaProtoGet t sock.protocol = some sock.lp ∧ sock.type = c.type ∧
        ∃ sk, c.sk = some sk ∧ (fbPflanaBuildFblock c.al s c.name sk).1 = some sock.fb := by
  unfold lanaFamilyCreate
  constructor
  · intro h
    split_ifs at h with hnet
    split at h
    · cases h
    rename_i protocol hsel
    split at h
    · cases h
    rename_i lp hget
    split at h
    · cases h
    rename_i sk hsk
    split at h
    · cases h
    rename_i fb hfb
    obtain rfl := Except.ok.inj h
    exact ⟨by simpa using hnet, hsel, hget, rfl, sk, hsk, hfb⟩
  · rintro ⟨hnet, hsel, hget, htype, sk, hsk, hfb⟩
    simp only [hnet, hsel, hget, hsk, hfb, ← htype, Bool.not_true, Bool.false_eq_true, if_false]

/-- What has to come together for a socket of a protocol. -/
theorem exists_socket_iff {protocol : ℤ} :
    (∃ sock, (lanaFamilyCreate capable t s c).1 = .ok sock ∧ sock.protocol = protocol) ↔
      c.initNet = true ∧ selectProtocol capable c = .ok protocol ∧
        (pflanaProtoGet t protocol).isSome ∧ c.sk.isSome ∧ Constructible c.al s c.name := by
  have hctor : ∀ sk, (fbPflanaBuildFblock c.al s c.name sk).1.isSome ↔
      Constructible c.al s c.name :=
    fun sk => fbCtor_isSome_iff .pflana (Priv.init 0 sk) c.al s c.name
  simp only [lanaFamilyCreate_eq_ok_iff]
  constructor
  · rintro ⟨sock, ⟨hnet, hsel, hget, -, sk, hsk, hfb⟩, rfl⟩
    refine ⟨hnet, hsel, ?_, ?_, (hctor sk).1 ?_⟩
    · rw [hget]; rfl
    · rw [hsk]; rfl
    · rw [hfb]; rfl
  · rintro ⟨hnet, hsel, hget, hsk, hcons⟩
    obtain ⟨lp, hlp⟩ := Option.isSome_iff_exists.1 hget
    obtain ⟨sk, hsk⟩ := Option.isSome_iff_exists.1 hsk
    obtain ⟨fb, hfb⟩ := Option.isSome_iff_exists.1 ((hctor sk).2 hcons)
    exact ⟨⟨lp, protocol, c.type, fb⟩, ⟨hnet, hsel, hlp, rfl, sk, hsk, hfb⟩, rfl⟩

/-- **Raw sockets.** For every table that registrations and unregistrations lead to, a call by a
process without `CAP_SYS_ADMIN` creates no raw socket, except exactly when it names the raw protocol
by its number while that is registered, in the initial network namespace, and there is memory and a
free name for the socket and its block. -/
theorem raw_socket_iff (protocol : LpAddr → ℤ) (acts : List ProtoAct) (s : State)
    (c : SocketCall) :
    (∀ sk, (lanaFamilyCreate false (runProtos (.init protocol) acts) s c).1 = .ok sk →
      sk.protocol ≠ lanaProtoRaw) ↔
    ¬ (c.initNet = true ∧ c.protocol = lanaProtoRaw ∧
      ((runProtos (.init protocol) acts).tab lanaProtoRaw).isSome ∧ c.sk.isSome ∧
      Constructible c.al s c.name) := by
  rw [← selectProtocol_raw_iff, ← pflanaProtoGet_raw, ← exists_socket_iff]
  push Not
  rfl

end Creation

/-- `socket(PF_LANA, type, LANA_PROTO_RAW)`, with memory for everything. -/
def rawCall (type : ℕ) : SocketCall := ⟨true, type, lanaProtoRaw, some 7, nameS, .ok⟩

/-- The raw protocol is registered, and a process without the capability gets a raw socket. -/
theorem raw_socket_unprivileged :
    ∃ sock, (lanaFamilyCreate false (runProtos (.init fun _ => lanaProtoRaw)
      [.register lanaProtoRaw (some lanaProtoRawLp) .ok]) (.init oneCpu) (rawCall sockRaw)).1 =
        .ok sock ∧ sock.protocol = lanaProtoRaw :=
  ⟨⟨lanaProtoRawLp, lanaProtoRaw, sockRaw, 0⟩, rfl, rfl⟩

/-! ## The raw protocol stays registered -/

section Registered

variable {t : ProtoTab} {i : ℤ} {lp : LpAddr}

/-- A taken entry is not given to another protocol. -/
theorem tab_register (h : t.tab i = some lp) (proto : ℤ) (protoRegister : Ret)
    (lp' : Option LpAddr) :
    (pflanaProtoRegister t proto protoRegister lp').2.tab i = some lp := by
  cases lp' with
  | none => exact h
  | some lp' =>
    unfold pflanaProtoRegister
    split_ifs with hrange hbusy herr
    · exact h
    · exact h
    · exact h
    · show Function.update t.tab proto (some lp') i = some lp
      rw [Function.update_of_ne]
      · exact h
      · rintro rfl
        rw [h] at hbusy
        exact hbusy rfl

/-- An entry is taken back from its own protocol only. -/
theorem tab_unregister (h : t.tab i = some lp) {lp' : Option LpAddr} (hne : lp' ≠ some lp) :
    (pflanaProtoUnregister t lp').tab i = some lp := by
  cases lp' with
  | none => exact h
  | some lp' =>
    unfold pflanaProtoUnregister
    dsimp only
    split_ifs with hrange hnone hbug
    · exact h
    · exact h
    · exact h
    · show Function.update t.tab (t.protocol lp') none i = some lp
      rw [not_not] at hbug
      rw [Function.update_of_ne]
      · exact h
      · rintro rfl
        exact hne (hbug.symm.trans h)

/-- **Step.** A call that does not unregister a protocol leaves it in the table. -/
theorem tab_exec (h : t.tab i = some lp) {a : ProtoAct} (ha : a ≠ .unregister (some lp)) :
    (a.exec t).tab i = some lp := by
  unfold ProtoAct.exec
  split_ifs
  · exact h
  · cases a with
    | register proto lp' protoRegister => exact tab_register h proto protoRegister lp'
    | unregister lp' => exact tab_unregister h fun heq => ha (congrArg _ heq)

/-- **Run.** A registered protocol stays in the table until it is unregistered. -/
theorem tab_run_of_kept (h : t.tab i = some lp) {acts : List ProtoAct}
    (hacts : ∀ a ∈ acts, a ≠ .unregister (some lp)) : (runProtos t acts).tab i = some lp :=
  List.foldlRecOn (motive := fun t => t.tab i = some lp) acts ProtoAct.exec h
    fun _ ht a ha => tab_exec ht (hacts a ha)

theorem tab_register_ok {proto : ℤ} {protoRegister : Ret}
    (h : (pflanaProtoRegister t proto protoRegister (some lp)).1 = .ok) :
    (pflanaProtoRegister t proto protoRegister (some lp)).2.tab proto = some lp := by
  unfold pflanaProtoRegister at h ⊢
  dsimp only at h ⊢
  split_ifs at h ⊢ with hrange hbusy herr
  · exact absurd h herr
  · exact Function.update_self ..

/-- Loading the module registers the raw protocol. -/
theorem tab_initFbPflana {protoRegister sockRegister : Ret}
    (h : (initFbPflana t protoRegister sockRegister).1 = .ok) :
    (initFbPflana t protoRegister sockRegister).2.tab lanaProtoRaw = some lanaProtoRawLp := by
  unfold initFbPflana at h ⊢
  dsimp only at h ⊢
  split at h
  · cases h
  · rename_i t' hreg
    have htab := tab_register_ok (congrArg Prod.fst hreg)
    rw [hreg] at htab
    cases sockRegister with
    | err e => cases h
    | ok => exact htab

/-- From the loading of the module until the raw protocol is unregistered, a process without
`CAP_SYS_ADMIN` that asks for it by its number gets a raw socket, as long as there is memory. -/
theorem raw_socket_of_loaded {protoRegister sockRegister : Ret}
    (h : (initFbPflana t protoRegister sockRegister).1 = .ok) {acts : List ProtoAct}
    (hacts : ∀ a ∈ acts, a ≠ .unregister (some lanaProtoRawLp)) {s : State} {c : SocketCall}
    (hnet : c.initNet = true) (hproto : c.protocol = lanaProtoRaw) (hsk : c.sk.isSome)
    (hcons : Constructible c.al s c.name) :
    ∃ sock, (lanaFamilyCreate false
      (runProtos (initFbPflana t protoRegister sockRegister).2 acts) s c).1 = .ok sock ∧
        sock.protocol = lanaProtoRaw := by
  refine exists_socket_iff.2 ⟨hnet, selectProtocol_raw_iff.2 hproto, ?_, hsk, hcons⟩
  rw [pflanaProtoGet_raw, tab_run_of_kept (tab_initFbPflana h) hacts]
  rfl

end Registered

end Lana
