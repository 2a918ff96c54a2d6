import Lana.Vlink.Devices

/-!
# Loss of a carrier

`fb_ethvlink_dev_event` hears of changes of the network devices.  When a carrier goes away it asks
`fb_ethvlink_rm_dev` to remove the virtual devices on it, one after another and by their names.  The
copy of a name is one byte short (`removals_prefix`), so what is asked for is never one of these
devices by its name, and may be one on another carrier (`unregister_exact_iff`).  A removal that
goes through does not come back: it waits for locks that the caller holds.
-/

namespace Lana

namespace Vlink

/-! ## Events -/

/-- The events of `netdevice.h` that are told apart. -/
inductive NetdevEvent where
  | change
  | featChange
  | unregister
  | preTypeChange
  | other
  deriving DecidableEq, Repr

/-- `NOTIFY_DONE` or `NOTIFY_BAD`. -/
inductive NotifyRet where
  | done
  | bad
  deriving DecidableEq, Repr

/-- `vdev->self->name`; a device on the list is registered. -/
def Net.nameOf (n : Net) (vdev : Vdev) : CStr := (n.dev vdev.self).elim CStr.empty NetDevice.name

/-- The message with a copied name.  The size that `strlcpy` is given leaves no room for the
terminator. -/
def rmRequest (name : CStr) : VlinkMsg :=
  ⟨.rmDevice, 0, 0, strlcpy name name.strlen, CStr.empty⟩

/-- The walk over the virtual devices for `NETDEV_UNREGISTER`: the messages given to
`fb_ethvlink_rm_dev`, and the devices afterwards.  The walk holds `fb_ethvlink_vdevs_lock`, and the
notifier is called with the RTNL; a removal that is not refused takes both again and does not
return. -/
def rmClients (d : Dev) : List Vdev → Net → List VlinkMsg × Option Net
  | [], n => ([], some n)
  | vdev :: rest, n =>
    if vdev.realDev = d then
      let vhdr := rmRequest (n.nameOf vdev)
      let (ret, n) := fbEthvlinkRmDev vhdr n
      if ret = vlinkRxStop then ([vhdr], none)
      else
        let (vhdrs, out) := rmClients d rest n
        (vhdr :: vhdrs, out)
    else rmClients d rest n

/-- `fb_ethvlink_dev_event`, with the messages given to `fb_ethvlink_rm_dev`; `unregistering` is the
test of `reg_state`.  The operational state that `NETDEV_CHANGE` hands on to the virtual devices is
left out. -/
def fbEthvlinkDevEvent (n : Net) (event : NetdevEvent) (dev : Option Dev) (unregistering : Bool) :
    List VlinkMsg × Option (NotifyRet × Net) :=
  match dev with
  | none => ([], some (.done, n))
  | some d =>
    match event with
    | .change | .featChange => ([], some (.done, n))
    | .unregister =>
      if !unregistering then ([], some (.done, n))
      else
        let (vhdrs, out) := rmClients d n.vdevs n
        (vhdrs, out.map (.done, ·))
    | .preTypeChange => ([], some (.bad, n))
    | .other => ([], some (.done, n))

/-! ## Requests -/

section Requests

variable {n : Net} {d : Dev}

theorem strlcpy_strlen (s : CStr) : (strlcpy s s.strlen).bytes = s.bytes.dropLast :=
  List.dropLast_eq_take.symm

/-- The copy is the name only if there is nothing to copy. -/
theorem strlcpy_strlen_eq_iff (s : CStr) : strlcpy s s.strlen = s ↔ s = CStr.empty := by
  constructor
  · intro h
    have hlen := congrArg List.length (congrArg CStr.bytes h)
    rw [strlcpy_strlen, List.length_dropLast] at hlen
    have hnil : s.bytes = [] := List.length_eq_zero_iff.1 (by omega)
    cases s
    cases hnil
    rfl
  · rintro rfl
    rfl

/-- A removal that is refused changes nothing. -/
theorem rmDev_refused {vhdr : VlinkMsg} (h : (fbEthvlinkRmDev vhdr n).1 ≠ vlinkRxStop) :
    (fbEthvlinkRmDev vhdr n).2 = n := by
  unfold fbEthvlinkRmDev at h ⊢
  repeat' split
  any_goals rfl
  simp_all

/-- The messages of the devices on a carrier. -/
def Net.rmRequests (n : Net) (d : Dev) (vdevs : List Vdev) : List VlinkMsg :=
  (vdevs.filter (·.realDev = d)).map fun v => rmRequest (n.nameOf v)

/-- `fb_ethvlink_rm_dev` refuses a message. -/
def Net.refuses (n : Net) (vhdr : VlinkMsg) : Bool := (fbEthvlinkRmDev vhdr n).1 ≠ vlinkRxStop

/-- The walk gets as far as the first removal that goes through. -/
theorem rmClients_requests (vdevs : List Vdev) :
    (rmClients d vdevs n).1 = (n.rmRequests d vdevs).takeWhile n.refuses ++
      ((n.rmRequests d vdevs).dropWhile n.refuses).take 1 := by
  induction vdevs with
  | nil => rfl
  | cons v vdevs ih =>
    unfold rmClients
    by_cases hd : v.realDev = d
    · have hcons :
          n.rmRequests d (v :: vdevs) = rmRequest (n.nameOf v) :: n.rmRequests d vdevs := by
        unfold Net.rmRequests
        rw [List.filter_cons_of_pos (by simpa using hd), List.map_cons]
      rw [if_pos hd, hcons]
      by_cases hstop : (fbEthvlinkRmDev (rmRequest (n.nameOf v)) n).1 = vlinkRxStop
      · have hnot : ¬ n.refuses (rmRequest (n.nameOf v)) = true := by
          simp [Net.refuses, hstop]
        rw [List.takeWhile_cons_of_neg hnot, List.dropWhile_cons_of_neg hnot]
        simp [hstop]
      · have hrefused : n.refuses (rmRequest (n.nameOf v)) = true := by
          simp [Net.refuses, hstop]
        rw [List.takeWhile_cons_of_pos hrefused, List.dropWhile_cons_of_pos hrefused,
          List.cons_append, ← ih]
        simp only [hstop, if_false, rmDev_refused hstop]
    · have hcons : n.rmRequests d (v :: vdevs) = n.rmRequests d vdevs := by
        unfold Net.rmRequests
        rw [List.filter_cons_of_neg (by simpa using hd)]
      rw [if_neg hd, hcons]
      exact ih

/-- The names that `fb_ethvlink_rm_dev` is asked to remove when a carrier goes away. -/
def Net.removals (n : Net) (d : Dev) : List CStr :=
  (fbEthvlinkDevEvent n .unregister (some d) true).1.map VlinkMsg.virtName

theorem removals_eq : n.removals d = (((n.rmRequests d n.vdevs).takeWhile n.refuses) ++
    ((n.rmRequests d n.vdevs).dropWhile n.refuses).take 1).map VlinkMsg.virtName := by
  rw [← rmClients_requests]
  rfl

/-- The names of the virtual devices on a carrier. -/
def Net.names (n : Net) (d : Dev) : List CStr :=
  (n.vdevs.filter (·.realDev = d)).map n.nameOf

theorem virtName_rmRequests : (n.rmRequests d n.vdevs).map VlinkMsg.virtName =
    (n.names d).map fun name => strlcpy name name.strlen := by
  unfold Net.rmRequests Net.names
  rw [List.map_map, List.map_map]
  rfl

/-- The walk asks for the names without their last bytes, in order. -/
theorem removals_prefix :
    n.removals d <+: (n.names d).map fun name => strlcpy name name.strlen := by
  rw [removals_eq, ← virtName_rmRequests]
  refine List.IsPrefix.map _ ?_
  calc (n.rmRequests d n.vdevs).takeWhile n.refuses ++
        ((n.rmRequests d n.vdevs).dropWhile n.refuses).take 1
      <+: (n.rmRequests d n.vdevs).takeWhile n.refuses ++
        (n.rmRequests d n.vdevs).dropWhile n.refuses :=
        (List.prefix_append_right_inj _).2 (List.take_prefix _ _)
    _ = n.rmRequests d n.vdevs := List.takeWhile_append_dropWhile

end Requests

/-! ## Exactness -/

section Exactness

variable {n : Net} {d : Dev}

/-- Asked to be removed are the virtual devices on the carrier by their names, and none on another
one. -/
def Net.Exact (n : Net) (d : Dev) : Prop :=
  n.removals d = n.names d ∧ ∀ v ∈ n.vdevs, v.realDev ≠ d → n.nameOf v ∉ n.removals d

/-- The first device of that name, if there is one, is no virtual device, or is up, or others use its
block. -/
def Net.Unremovable (n : Net) (name : CStr) : Prop :=
  ∀ d dev, n.devGetByName name = some (d, dev) → dev.isVlinkDev = false ∨ dev.running = true ∨
    ∀ v, n.vdevs.find? (·.self = d) = some v → 2 < n.blocks.refcnt v.fb

theorem refuses_iff (name : CStr) :
    n.refuses (rmRequest name) = true ↔ n.Unremovable (rmRequest name).virtName := by
  have hcmd : ¬ (rmRequest name).cmd ≠ .rmDevice := fun h => h rfl
  have hemerg : vlinkRxEmerg ≠ vlinkRxStop := by decide
  unfold Net.refuses Net.Unremovable fbEthvlinkRmDev
  rw [if_neg hcmd, decide_eq_true_iff]
  rcases n.devGetByName (rmRequest name).virtName with _ | ⟨d, dev⟩
  · exact iff_of_true hemerg fun _ _ h => by cases h
  have hone : ∀ {Q : Dev → NetDevice → Prop}, (∀ d' dev', some (d, dev) = some (d', dev') → Q d' dev') ↔
      Q d dev := by
    intro Q
    refine ⟨fun h => h d dev rfl, fun h d' dev' heq => ?_⟩
    obtain ⟨rfl, rfl⟩ := Prod.mk.inj (Option.some.inj heq)
    exact h
  rw [hone]
  dsimp only
  split_ifs with hvlink hrun
  · exact iff_of_true hemerg (.inl (by simpa using hvlink))
  · exact iff_of_true hemerg (.inr (.inl hrun))
  generalize n.vdevs.find? _ = found
  rcases found with _ | v
  · exact iff_of_true hemerg (.inr (.inr fun _ h => by cases h))
  dsimp only
  split_ifs with hcnt
  · refine iff_of_true hemerg (.inr (.inr fun v' hv => ?_))
    obtain rfl := Option.some.inj hv
    exact hcnt
  · refine iff_of_false (fun h => h rfl) ?_
    rintro (h | h | h)
    · exact hvlink (by rw [h]; rfl)
    · exact hrun h
    · exact hcnt (h v rfl)

/-- The virtual devices on the carrier, and only these, have the empty name, and if there are several,
the device of that name cannot be removed.  The kernel registers no such device. -/
structure Net.Nameless (n : Net) (d : Dev) : Prop where
  here : ∀ name ∈ n.names d, name = CStr.empty
  elsewhere : ∀ v ∈ n.vdevs, v.realDev ≠ d → n.nameOf v ≠ CStr.empty
  kept : 2 ≤ (n.names d).length → n.Unremovable CStr.empty

theorem virtName_rmRequest_empty : (rmRequest CStr.empty).virtName = CStr.empty :=
  (strlcpy_strlen_eq_iff _).2 rfl

/-- What is asked for by its name has no name. -/
theorem names_empty (h : n.removals d = n.names d) : ∀ name ∈ n.names d, name = CStr.empty := by
  have hpre := removals_prefix (n := n) (d := d)
  rw [h] at hpre
  have hall := hpre.eq_of_length (List.length_map _).symm
  intro name hname
  have hfix := List.map_inj_left.1 ((List.map_id' _).trans hall) name hname
  exact (strlcpy_strlen_eq_iff name).1 hfix.symm

/-- The messages when no device on the carrier has a name. -/
theorem rmRequests_nameless (h : ∀ name ∈ n.names d, name = CStr.empty) :
    n.rmRequests d n.vdevs = List.replicate (n.names d).length (rmRequest CStr.empty) := by
  have hmap : n.rmRequests d n.vdevs = (n.names d).map rmRequest := by
    unfold Net.rmRequests Net.names
    rw [List.map_map]
    rfl
  rw [hmap, List.eq_replicate_iff.2 ⟨rfl, h⟩, List.map_replicate, List.length_replicate]

/-- All messages are sent if they are refused, and otherwise one is. -/
theorem removals_nameless (h : ∀ name ∈ n.names d, name = CStr.empty) :
    n.removals d = List.replicate (if n.refuses (rmRequest CStr.empty) then (n.names d).length
      else min 1 (n.names d).length) CStr.empty := by
  have hname := virtName_rmRequest_empty
  rw [removals_eq, rmRequests_nameless h, List.takeWhile_replicate, List.dropWhile_replicate]
  split_ifs
  · rw [List.take_nil, List.append_nil, List.map_replicate, hname]
  · rw [List.nil_append, List.take_replicate, List.map_replicate, hname]

theorem exact_of_nameless (h : n.Nameless d) : n.Exact d := by
  have hnames : n.names d = List.replicate (n.names d).length CStr.empty :=
    List.eq_replicate_iff.2 ⟨rfl, h.here⟩
  have heq : n.removals d = n.names d := by
    rw [removals_nameless h.here]
    nth_rewrite 3 [hnames]
    congr 1
    split_ifs with hrefused
    · rfl
    · have hfew : ¬ 2 ≤ (n.names d).length := fun h2 =>
        hrefused ((refuses_iff _).2 (virtName_rmRequest_empty ▸ h.kept h2))
      omega
  refine ⟨heq, fun v hv hd hmem => ?_⟩
  rw [heq] at hmem
  exact h.elsewhere v hv hd (h.here _ hmem)

/-- **Loss of a carrier.** The removals asked for are those of the virtual devices on the carrier,
by their names, exactly if there is none, or none with a name. -/
theorem unregister_exact_iff (n : Net) (d : Dev) :
    n.Exact d ↔ n.names d = [] ∨ n.Nameless d := by
  constructor
  · rintro ⟨heq, hother⟩
    have hempty := names_empty heq
    refine or_iff_not_imp_left.2 fun hne => ⟨hempty, fun v hv hd hname => ?_, fun h2 => ?_⟩
    · obtain ⟨name, names, hcons⟩ := List.exists_cons_of_ne_nil hne
      have hmem : name ∈ n.names d := hcons ▸ List.mem_cons_self
      rw [hempty name hmem, ← heq] at hmem
      exact hother v hv hd (hname ▸ hmem)
    · -- one message is too few
      rw [← virtName_rmRequest_empty, ← refuses_iff]
      by_contra hrefused
      have hlen := congrArg List.length heq
      rw [removals_nameless hempty, if_neg hrefused, List.length_replicate] at hlen
      omega
  · rintro (hnil | h)
    · have hpre := removals_prefix (n := n) (d := d)
      rw [hnil] at hpre
      have hnone : n.removals d = [] := List.prefix_nil.1 hpre
      refine ⟨hnone.trans hnil.symm, fun v _ _ hmem => ?_⟩
      rw [hnone] at hmem
      cases hmem
    · exact exact_of_nameless h

/-- The device `w` on the carrier 1, and `wx` on the carrier 0. -/
def twoCarriers : Net where
  dev d :=
    if d = 0 then some ⟨nameA, 0, false, none⟩
    else if d = 1 then some ⟨nameB, 0, false, none⟩
    else if d = 2 then some ⟨⟨[119, 120], by simp, by simp⟩, iffVlinkDev, false, none⟩
    else if d = 3 then some ⟨⟨[119], by simp, by simp⟩, iffVlinkDev, false, none⟩
    else none
  ndev := 4
  vdevs := [⟨6, 3, 1, 1⟩, ⟨5, 2, 0, 0⟩]
  ethDevs := []
  blocks := State.init oneCpu

/-- When the carrier 0 goes away the device `w` on the carrier 1 is asked to be removed instead of
`wx`; it is, and the handler does not return. -/
theorem unregister_other :
    (twoCarriers.names 0).map CStr.bytes = [[119, 120]] ∧
      (twoCarriers.names 1).map CStr.bytes = [[119]] ∧
      (twoCarriers.removals 0).map CStr.bytes = [[119]] ∧
      (fbEthvlinkDevEvent twoCarriers .unregister (some 0) true).2.isNone = true := by
  decide +kernel

end Exactness

end Vlink

end Lana
