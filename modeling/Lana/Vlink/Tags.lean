import Lana.Engine.Blocks
import Lana.Vlink.Pins

/-!
# Tags

Virtual devices share a carrier by the ethertypes of their frames: the handler that `fb_ethvlink.c`
hooks into the carrier takes the ethertypes from `ETH_P_LANA` on, with the tag of the virtual device
in the last ten bits.  Over every run the tags on the list are distinct and have ten bits
(`tagged_run`).

The handler uses `ETH_P_LANA` as a mask, which has two gaps: it also takes frames with more bits set
(`and_ethPLana_iff`), whose tags then belong to no device (`tag_toNat`).  It passes the frames of
the loopback, and a frame with other references to it is cloned before its ethertype is looked at.
Apart from these a frame gets where its ethertype says (`tag_demux_iff`).
-/

namespace Lana

namespace Vlink

/-! ## Byte order -/

/-- `htons` of a little-endian machine. -/
def htons (x : UInt16) : UInt16 := x <<< 8 ||| x >>> 8

/-- `ntohs` of a little-endian machine. -/
def ntohs (x : UInt16) : UInt16 := htons x

theorem getLsbD_htons (x : UInt16) {i : ℕ} (hi : i < 16) :
    (htons x).toBitVec.getLsbD i = x.toBitVec.getLsbD ((i + 8) % 16) := by
  have hbits : (htons x).toBitVec = x.toBitVec <<< 8 ||| x.toBitVec >>> 8 := rfl
  rw [hbits, BitVec.getLsbD_or, BitVec.getLsbD_shiftLeft, BitVec.getLsbD_ushiftRight]
  by_cases h8 : i < 8
  · rw [Nat.mod_eq_of_lt (by omega), add_comm]
    simp [h8]
  · have hhigh : (i + 8) % 16 = i - 8 := by omega
    rw [hhigh, BitVec.getLsbD_of_ge _ (8 + i) (by omega)]
    simp [h8, hi]

theorem htons_and (x y : UInt16) : htons (x &&& y) = htons x &&& htons y := by
  rw [← UInt16.toBitVec_inj]
  refine BitVec.eq_of_getLsbD_eq fun i hi => ?_
  rw [UInt16.toBitVec_and, BitVec.getLsbD_and, getLsbD_htons _ hi, getLsbD_htons _ hi,
    getLsbD_htons _ hi, UInt16.toBitVec_and, BitVec.getLsbD_and]

theorem htons_not (x : UInt16) : htons (~~~x) = ~~~htons x := by
  rw [← UInt16.toBitVec_inj]
  refine BitVec.eq_of_getLsbD_eq fun i hi => ?_
  rw [UInt16.toBitVec_not, BitVec.getLsbD_not, getLsbD_htons _ hi, getLsbD_htons _ hi,
    UInt16.toBitVec_not, BitVec.getLsbD_not, decide_eq_true hi,
    decide_eq_true (Nat.mod_lt _ (by decide))]

theorem htons_htons (x : UInt16) : htons (htons x) = x := by
  rw [← UInt16.toBitVec_inj]
  refine BitVec.eq_of_getLsbD_eq fun i hi => ?_
  have hback : ((i + 8) % 16 + 8) % 16 = i := by omega
  rw [getLsbD_htons _ hi, getLsbD_htons _ (Nat.mod_lt _ (by decide)), hback]

theorem htons_injective : Function.Injective htons :=
  Function.LeftInverse.injective htons_htons

/-! ## The mask -/

/-- `ETH_P_LANA`. -/
def ethPLana : UInt16 := 0xAC00

theorem and_div (x y : UInt16) :
    (x &&& y).toNat / 1024 = x.toNat / 1024 &&& y.toNat / 1024 := by
  rw [UInt16.toNat_and]
  exact Nat.and_div_two_pow (n := 10)

theorem and_mod (x y : UInt16) :
    (x &&& y).toNat % 1024 = x.toNat % 1024 &&& y.toNat % 1024 := by
  rw [UInt16.toNat_and]
  exact Nat.and_mod_two_pow (n := 10)

/-- Besides `0xAC00`–`0xAFFF` the mask takes `0xBC00`–`0xBFFF`, `0xEC00`–`0xEFFF` and
`0xFC00`–`0xFFFF`. -/
theorem and_ethPLana_iff (e : UInt16) :
    e &&& ethPLana = ethPLana ↔ e.toNat / 1024 ∈ [0x2B, 0x2F, 0x3B, 0x3F] := by
  have hlt : e.toNat / 1024 < 64 := by
    have := e.toNat_lt
    omega
  have hmod : (e &&& ethPLana).toNat % 1024 = 0 := by
    rw [and_mod]
    exact Nat.and_zero _
  have hdiv : (e &&& ethPLana).toNat / 1024 = e.toNat / 1024 &&& 0x2B := and_div e ethPLana
  have hhigh : e.toNat / 1024 &&& 0x2B = 0x2B ↔ e.toNat / 1024 ∈ [0x2B, 0x2F, 0x3B, 0x3F] := by
    generalize e.toNat / 1024 = h at hlt
    decide +revert
  have hlana : ethPLana.toNat = 0xAC00 := rfl
  rw [← hhigh, ← hdiv, ← UInt16.toNat_inj]
  omega

/-- What is left of an ethertype without the mask: the last ten bits, and the gaps. -/
theorem tag_toNat (e : UInt16) :
    (e &&& ~~~ethPLana).toNat = 1024 * (e.toNat / 1024 &&& 0x14) + e.toNat % 1024 := by
  have hdiv : (e &&& ~~~ethPLana).toNat / 1024 = e.toNat / 1024 &&& 0x14 :=
    and_div e (~~~ethPLana)
  have hmod : (e &&& ~~~ethPLana).toNat % 1024 = e.toNat % 1024 := by
    rw [and_mod]
    show e.toNat % 1024 &&& 2 ^ 10 - 1 = _
    rw [Nat.and_two_pow_sub_one_eq_mod, Nat.mod_mod]
  rw [← hdiv, ← hmod]
  exact (Nat.div_add_mod _ _).symm

/-! ## The tags of the virtual devices -/

/-- The tags on the list are distinct and have ten bits. -/
structure Tagged (vdevs : List Vdev) : Prop where
  nodup : (vdevs.map Vdev.tag).Nodup
  small : ∀ v ∈ vdevs, v.tag.toNat < 1024

section Tagged

variable {n : Net} {vmsg : VlinkMsg} {al : DevAlloc}

theorem Tagged.eq_of_tag {vdevs : List Vdev} (h : Tagged vdevs) {v v' : Vdev} (hv : v ∈ vdevs)
    (hv' : v' ∈ vdevs) (htag : v.tag = v'.tag) : v = v' :=
  List.inj_on_of_nodup_map h.nodup hv hv' htag

theorem Tagged.sublist {vdevs vdevs' : List Vdev} (h : Tagged vdevs) (hs : vdevs'.Sublist vdevs) :
    Tagged vdevs' :=
  ⟨h.nodup.sublist (hs.map _), fun v hv => h.small v (hs.subset hv)⟩

/-- A tag that no device has yet. -/
theorem Tagged.cons {vdevs : List Vdev} (h : Tagged vdevs) {v : Vdev} (port : UInt16)
    (htag : v.tag = port &&& 0x3FF) (hnew : vdevs.any (·.tag = v.tag) = false) :
    Tagged (v :: vdevs) := by
  refine ⟨?_, ?_⟩
  · rw [List.map_cons, List.nodup_cons]
    refine ⟨fun hmem => ?_, h.nodup⟩
    obtain ⟨v', hv', heq⟩ := List.mem_map.1 hmem
    exact absurd heq (by simpa using List.any_eq_false.1 hnew v' hv')
  · intro v' hv'
    rcases List.mem_cons.1 hv' with rfl | hv'
    · rw [htag, UInt16.toNat_and]
      exact Nat.and_lt_two_pow (n := 10) _ (by decide)
    · exact h.small v' hv'

theorem tagged_addDev (h : Tagged n.vdevs) : Tagged (fbEthvlinkAddDev al vmsg n).2.vdevs := by
  unfold fbEthvlinkAddDev
  dsimp only
  repeat' split
  any_goals exact h
  rename_i hnew _ _ _ _ _ _ _ _
  exact h.cons vmsg.port rfl (by simpa using hnew)

theorem vdevs_unstack (d : Dev) (v : Vdev) : (n.unstack d v).vdevs = n.vdevs.erase v := by
  unfold Net.unstack Net.detach
  repeat' split
  all_goals rfl

theorem tagged_rmDev (h : Tagged n.vdevs) : Tagged (fbEthvlinkRmDev vmsg n).2.vdevs := by
  unfold fbEthvlinkRmDev
  repeat' split
  any_goals exact h
  rw [vdevs_unstack]
  exact h.sublist List.erase_sublist

theorem tagged_rx (cb : Callback) (h : Tagged n.vdevs) :
    Tagged (Subsys.ethvlink.rx al cb vmsg n).2.vdevs := by
  cases cb with
  | addDev => exact tagged_addDev h
  | rmDev => exact tagged_rmDev h
  | startHookDev =>
    show Tagged (fbEthvlinkStartHookDev vmsg n).2.vdevs
    unfold fbEthvlinkStartHookDev
    repeat' split
    all_goals exact h
  | stopHookDev =>
    show Tagged (fbEthvlinkStopHookDev vmsg n).2.vdevs
    unfold fbEthvlinkStopHookDev
    repeat' split
    all_goals exact h

theorem tagged_step {w : Owned Net} (h : Tagged w.state.vdevs) (a : Act) :
    Tagged (step .ethvlink w a).state.vdevs := by
  cases a with
  | command vmsg al =>
    exact vlinkInvoke_preserves (I := fun n => Tagged n.vdevs) (fun cb _ => tagged_rx cb) _ _ w h
  | plug name => exact h
  | running d b => exact h
  | foreign d b => exact h
  | blocks s => exact h

/-- Over every run the tags are distinct and have ten bits. -/
theorem tagged_run {w : Owned Net} (h : Tagged w.state.vdevs) (acts : List Act) :
    Tagged (acts.foldl (step .ethvlink) w).state.vdevs := by
  induction acts generalizing w with
  | nil => exact h
  | cons a acts ih => exact ih (tagged_step h a)

end Tagged

/-! ## The handler -/

/-- A frame a device has received, with what `fb_ethvlink_handle_frame` looks at besides. -/
structure EthFrame extends Frame where
  /-- `IFF_UP` of the device -/
  up : Bool
  /-- `h_proto`, as it lies in the header -/
  hProto : UInt16

def EthFrame.ethertype (f : EthFrame) : UInt16 := ntohs f.hProto

/-- `fb_ethvlink_handle_frame`, without the statistics of the virtual device. -/
def fbEthvlinkHandleFrame (k : Kernel) (fuel : ℕ) (e : Engine World) (vdevs : List Vdev)
    (f : EthFrame) : Option (RxHandlerResult × Engine World) :=
  let drop (w : World) (skb : Skb) := some (.consumed, e.withWorld (kfreeSkb w skb))
  if !f.up then drop e.world f.skb
  else if f.loopback then some (.pass, e)
  else if !f.validSource then drop e.world f.skb
  else
    match skbShareCheck k e.world f.skb with
    | (none, w) => some (.consumed, e.withWorld w)
    | (some skb, w) =>
      if f.hProto &&& htons ethPLana ≠ htons ethPLana then some (.pass, e.withWorld w)
      else
        let vtag := ntohs (f.hProto &&& ~~~htons ethPLana)
        match vdevs.find? fun vdev => vtag = vdev.tag ∧ f.dev = vdev.realDev with
        | none => drop w skb
        | some vdev =>
          (fbEthvlinkHandleFrameVirt k fuel (e.withWorld w) vdev.fb skb).map (.consumed, ·)

/-- A frame goes to the receive handler of its device; the host gets what no handler of the two
modules is registered for. -/
def Net.receive (n : Net) (k : Kernel) (fuel : ℕ) (e : Engine World) (f : EthFrame) :
    Option (RxHandlerResult × Engine World) :=
  match (n.dev f.dev).bind NetDevice.rxHandler with
  | some .ethvlink => fbEthvlinkHandleFrame k fuel e n.vdevs f
  | some .eth => fbEthHandleFrame k fuel e f.toFrame
  | some .other | none => some (.pass, e)

theorem hProto_lana_iff (f : EthFrame) : f.hProto &&& htons ethPLana = htons ethPLana ↔
    f.ethertype.toNat / 1024 ∈ [0x2B, 0x2F, 0x3B, 0x3F] := by
  rw [← and_ethPLana_iff, ← htons_injective.eq_iff, htons_and, htons_htons]
  rfl

theorem hProto_tag (f : EthFrame) :
    ntohs (f.hProto &&& ~~~htons ethPLana) = f.ethertype &&& ~~~ethPLana := by
  unfold ntohs EthFrame.ethertype
  rw [htons_and, htons_not, htons_htons]
  rfl

section Handler

variable {k : Kernel} {fuel : ℕ} {e : Engine World} {n : Net} {f : EthFrame} {w : World} {skb : Skb}

theorem receive_hooked (h : f.dev ∈ n.hookedBy .ethvlink) :
    n.receive k fuel e f = fbEthvlinkHandleFrame k fuel e n.vdevs f := by
  unfold Net.receive
  rw [(mem_hookedBy.1 h).2]
  rfl

theorem handleFrame_loopback (hup : f.up = true) (hlo : f.loopback = true) (vdevs : List Vdev) :
    fbEthvlinkHandleFrame k fuel e vdevs f = some (.pass, e) := by
  unfold fbEthvlinkHandleFrame
  simp only [hup, hlo, Bool.not_true, Bool.false_eq_true, if_false, if_true]

section Checked

variable (hup : f.up = true) (hsrc : f.validSource = true) (hlo : f.loopback = false)

include hup hsrc hlo

theorem handleFrame_refused (hs : skbShareCheck k e.world f.skb = (none, w)) (vdevs : List Vdev) :
    fbEthvlinkHandleFrame k fuel e vdevs f = some (.consumed, e.withWorld w) := by
  unfold fbEthvlinkHandleFrame
  simp only [hup, hlo, hsrc, hs, Bool.not_true, Bool.false_eq_true, if_false]

variable (hs : skbShareCheck k e.world f.skb = (some skb, w))

include hs

theorem handleFrame_other (hp : f.ethertype.toNat / 1024 ∉ [0x2B, 0x2F, 0x3B, 0x3F])
    (vdevs : List Vdev) :
    fbEthvlinkHandleFrame k fuel e vdevs f = some (.pass, e.withWorld w) := by
  have hmask := mt (hProto_lana_iff f).1 hp
  unfold fbEthvlinkHandleFrame
  simp only [hup, hlo, hsrc, hs, Bool.not_true, Bool.false_eq_true, if_false, ne_eq, hmask,
    not_false_eq_true, if_true]

variable (hp : f.ethertype.toNat / 1024 ∈ [0x2B, 0x2F, 0x3B, 0x3F])

include hp

theorem handleFrame_missed {vdevs : List Vdev}
    (h : ∀ v ∈ vdevs, v.tag = f.ethertype &&& ~~~ethPLana → v.realDev ≠ f.dev) :
    fbEthvlinkHandleFrame k fuel e vdevs f = some (.consumed, e.withWorld (kfreeSkb w skb)) := by
  have hmask := (hProto_lana_iff f).2 hp
  have hfind : (vdevs.find? fun vdev =>
      f.ethertype &&& ~~~ethPLana = vdev.tag ∧ f.dev = vdev.realDev) = none := by
    rw [List.find?_eq_none]
    intro v hv hmatch
    obtain ⟨htag, hdev⟩ := of_decide_eq_true hmatch
    exact h v hv htag.symm hdev.symm
  unfold fbEthvlinkHandleFrame
  simp only [hup, hlo, hsrc, hs, Bool.not_true, Bool.false_eq_true, if_false, ne_eq, hmask,
    not_true_eq_false, hProto_tag, hfind]

theorem handleFrame_found {vdevs : List Vdev} (ht : Tagged vdevs) {v : Vdev} (hv : v ∈ vdevs)
    (htag : v.tag = f.ethertype &&& ~~~ethPLana) (hdev : v.realDev = f.dev) :
    fbEthvlinkHandleFrame k fuel e vdevs f =
      (fbEthvlinkHandleFrameVirt k fuel (e.withWorld w) v.fb skb).map (.consumed, ·) := by
  have hmask := (hProto_lana_iff f).2 hp
  have hfind : (vdevs.find? fun vdev =>
      f.ethertype &&& ~~~ethPLana = vdev.tag ∧ f.dev = vdev.realDev) = some v := by
    rcases hfound : vdevs.find? _ with _ | v'
    · exact absurd (decide_eq_true ⟨htag.symm, hdev.symm⟩) (List.find?_eq_none.1 hfound v hv)
    · have hmatch := List.find?_some hfound
      have htag' := (of_decide_eq_true hmatch).1
      rw [ht.eq_of_tag (List.mem_of_find?_eq_some hfound) hv (htag'.symm.trans htag.symm)]
  unfold fbEthvlinkHandleFrame
  simp only [hup, hlo, hsrc, hs, Bool.not_true, Bool.false_eq_true, if_false, ne_eq, hmask,
    not_true_eq_false, hProto_tag, hfind]

end Checked

end Handler

/-! ## Demultiplexing -/

section Demux

variable (n : Net) (k : Kernel) (fuel : ℕ) (e : Engine World) (f : EthFrame)

/-- The frame, or its clone if there are other references to it, is given to a virtual device. -/
def Delivered (v : Vdev) : Prop :=
  ∃ skb w, skbShareCheck k e.world f.skb = (some skb, w) ∧ n.receive k fuel e f =
    (fbEthvlinkHandleFrameVirt k fuel (e.withWorld w) v.fb skb).map (.consumed, ·)

/-- The frame is freed, with the clone if there is one. -/
def Dropped : Prop :=
  (∃ skb w, skbShareCheck k e.world f.skb = (some skb, w) ∧
      n.receive k fuel e f = some (.consumed, e.withWorld (kfreeSkb w skb))) ∨
    ∃ w, skbShareCheck k e.world f.skb = (none, w) ∧
      n.receive k fuel e f = some (.consumed, e.withWorld w)

/-- The frame gets where its ethertype says: to the virtual device with the tag, if there is one on
the carrier, or untouched to the host if it has none. -/
def Demultiplexed : Prop :=
  (∀ t < 1024, f.ethertype.toNat = 0xAC00 + t →
      (∀ v ∈ n.vdevs, v.tag.toNat = t → v.realDev = f.dev → Delivered n k fuel e f v) ∧
      ((∀ v ∈ n.vdevs, v.tag.toNat = t → v.realDev ≠ f.dev) → Dropped n k fuel e f)) ∧
    ((∀ t < 1024, f.ethertype.toNat ≠ 0xAC00 + t) → n.receive k fuel e f = some (.pass, e))

/-- A frame with a tag is not of the loopback and, for a device, can be cloned if it has to be; a
frame without one is of the loopback, or neither fills the gaps of the mask nor has other
references. -/
def Undisturbed : Prop :=
  (f.ethertype.toNat / 1024 = 0x2B → f.loopback = false ∧
      ((∃ v ∈ n.vdevs, v.tag.toNat = f.ethertype.toNat % 1024 ∧ v.realDev = f.dev) →
        skbShared f.skb = true → k.skbClone f.skb = true)) ∧
    (f.ethertype.toNat / 1024 ≠ 0x2B → f.loopback = true ∨
      f.ethertype.toNat / 1024 ∉ [0x2F, 0x3B, 0x3F] ∧ skbShared f.skb = false)

end Demux

section Outcomes

variable {n : Net} {k : Kernel} {fuel : ℕ} {e : Engine World} {f : EthFrame}

/-- What `skb_share_check` may do. -/
theorem skbShareCheck_cases (k : Kernel) (w : World) (skb : Skb) :
    (skbShared skb = false ∧ skbShareCheck k w skb = (some skb, w)) ∨
      (skbShared skb = true ∧ k.skbClone skb = true ∧
        ∃ w', skbShareCheck k w skb = (some skb.cloned, w') ∧ w' ≠ w) ∨
      (skbShared skb = true ∧ k.skbClone skb = false ∧
        ∃ w', skbShareCheck k w skb = (none, w')) := by
  unfold skbShareCheck
  cases hs : skbShared skb with
  | false => exact .inl ⟨rfl, rfl⟩
  | true =>
    cases hc : k.skbClone skb with
    | true =>
      refine .inr (.inl ⟨rfl, rfl, _, rfl, fun heq => ?_⟩)
      have hlen := congrArg (fun w : World => w.ledger.length) heq
      simp [kfreeSkb, World.dispose, World.make] at hlen
    | false => exact .inr (.inr ⟨rfl, rfl, _, rfl⟩)

/-- The ethertypes with a tag. -/
theorem ethertype_eq_iff {t : ℕ} (ht : t < 1024) :
    f.ethertype.toNat = 0xAC00 + t ↔
      f.ethertype.toNat / 1024 = 0x2B ∧ f.ethertype.toNat % 1024 = t := by
  omega

theorem demultiplexed_iff : Demultiplexed n k fuel e f ↔
    (f.ethertype.toNat / 1024 = 0x2B →
      (∀ v ∈ n.vdevs, v.tag.toNat = f.ethertype.toNat % 1024 → v.realDev = f.dev →
        Delivered n k fuel e f v) ∧
      ((∀ v ∈ n.vdevs, v.tag.toNat = f.ethertype.toNat % 1024 → v.realDev ≠ f.dev) →
        Dropped n k fuel e f)) ∧
    (f.ethertype.toNat / 1024 ≠ 0x2B → n.receive k fuel e f = some (.pass, e)) := by
  refine and_congr ⟨fun h h43 => ?_, fun h t ht heq => ?_⟩
    ⟨fun h h43 => h fun t ht heq => ?_, fun h hne => h fun h43 => ?_⟩
  · have hlt : f.ethertype.toNat % 1024 < 1024 := Nat.mod_lt _ (by decide)
    exact h _ hlt ((ethertype_eq_iff hlt).2 ⟨h43, rfl⟩)
  · obtain ⟨h43, rfl⟩ := (ethertype_eq_iff ht).1 heq
    exact h h43
  · exact h43 ((ethertype_eq_iff ht).1 heq).1
  · have hlt : f.ethertype.toNat % 1024 < 1024 := Nat.mod_lt _ (by decide)
    exact hne _ hlt ((ethertype_eq_iff hlt).2 ⟨h43, rfl⟩)

theorem ethertype_lana (h43 : f.ethertype.toNat / 1024 = 0x2B) :
    f.ethertype.toNat / 1024 ∈ [0x2B, 0x2F, 0x3B, 0x3F] := by
  rw [h43]
  decide

/-- A tag with the mask taken off. -/
theorem tag_eq_iff (h43 : f.ethertype.toNat / 1024 = 0x2B) (v : Vdev) :
    v.tag = f.ethertype &&& ~~~ethPLana ↔ v.tag.toNat = f.ethertype.toNat % 1024 := by
  have hzero : 1024 * (0x2B &&& 0x14) + f.ethertype.toNat % 1024 = f.ethertype.toNat % 1024 :=
    Nat.zero_add _
  rw [← UInt16.toNat_inj, tag_toNat, h43, hzero]

/-- A frame that fills a gap has the tag of no device. -/
theorem tag_ne (ht : Tagged n.vdevs) (hgap : f.ethertype.toNat / 1024 ∈ [0x2F, 0x3B, 0x3F])
    {v : Vdev} (hv : v ∈ n.vdevs) : v.tag ≠ f.ethertype &&& ~~~ethPLana := by
  intro heq
  have hsmall := ht.small v hv
  rw [heq, tag_toNat] at hsmall
  have hpos : 0 < f.ethertype.toNat / 1024 &&& 0x14 := by
    generalize f.ethertype.toNat / 1024 = h at hgap
    revert h
    decide
  omega

variable (hhook : f.dev ∈ n.hookedBy .ethvlink) (hup : f.up = true)

include hhook hup

/-- The loopback is passed. -/
theorem demultiplexed_loopback (hlo : f.loopback = true) :
    Demultiplexed n k fuel e f ↔ Undisturbed n k f := by
  have hout : n.receive k fuel e f = some (.pass, e) := by
    rw [receive_hooked hhook, handleFrame_loopback hup hlo]
  rw [demultiplexed_iff]
  unfold Undisturbed
  refine and_congr (imp_congr_right fun _ => ⟨fun h => ?_, fun h => ?_⟩)
    (imp_congr_right fun _ => iff_of_true hout (.inl hlo))
  · -- neither delivered nor dropped
    by_cases hv : ∃ v ∈ n.vdevs, v.tag.toNat = f.ethertype.toNat % 1024 ∧ v.realDev = f.dev
    · obtain ⟨v, hv, htag, hdev⟩ := hv
      obtain ⟨skb, w, -, heq⟩ := h.1 v hv htag hdev
      rw [hout, eq_comm, Option.map_eq_some_iff] at heq
      obtain ⟨e', -, heq⟩ := heq
      cases heq
    · push Not at hv
      obtain ⟨skb, w, -, heq⟩ | ⟨w, -, heq⟩ := h.2 hv
      · rw [hout] at heq
        cases heq
      · rw [hout] at heq
        cases heq
  · rw [hlo] at h
    cases h.1

variable (hsrc : f.validSource = true) (hlo : f.loopback = false)

include hsrc hlo

section Tag

variable (h43 : f.ethertype.toNat / 1024 = 0x2B)

include h43

theorem delivered_of_share {skb : Skb} {w : World}
    (hs : skbShareCheck k e.world f.skb = (some skb, w)) (ht : Tagged n.vdevs) {v : Vdev}
    (hv : v ∈ n.vdevs) (htag : v.tag.toNat = f.ethertype.toNat % 1024) (hdev : v.realDev = f.dev) :
    Delivered n k fuel e f v := by
  refine ⟨skb, w, hs, ?_⟩
  rw [receive_hooked hhook]
  exact handleFrame_found hup hsrc hlo hs (ethertype_lana h43) ht hv ((tag_eq_iff h43 v).2 htag)
    hdev

theorem dropped_of_share {skb : Skb} {w : World}
    (hs : skbShareCheck k e.world f.skb = (some skb, w))
    (hno : ∀ v ∈ n.vdevs, v.tag.toNat = f.ethertype.toNat % 1024 → v.realDev ≠ f.dev) :
    Dropped n k fuel e f := by
  refine .inl ⟨skb, w, hs, ?_⟩
  rw [receive_hooked hhook]
  exact handleFrame_missed hup hsrc hlo hs (ethertype_lana h43)
    fun v hv htag => hno v hv ((tag_eq_iff h43 v).1 htag)

/-- A frame with a tag reaches the device, or is dropped if there is none, unless it has to be
cloned and cannot. -/
theorem demultiplexed_tag (ht : Tagged n.vdevs) :
    Demultiplexed n k fuel e f ↔ Undisturbed n k f := by
  rw [demultiplexed_iff]
  unfold Undisturbed
  refine and_congr (imp_congr_right fun _ => ?_) (iff_of_true (absurd h43) (absurd h43))
  rw [and_iff_right hlo]
  obtain ⟨hshared, hs⟩ | ⟨-, hclone, w, hs, -⟩ | ⟨hshared, hclone, w, hs⟩ :=
    skbShareCheck_cases k e.world f.skb
  · refine iff_of_true ⟨fun v => ?_, ?_⟩ fun _ h => absurd h (by simp [hshared])
    · exact delivered_of_share hhook hup hsrc hlo h43 hs ht
    · exact dropped_of_share hhook hup hsrc hlo h43 hs
  · refine iff_of_true ⟨fun v => ?_, ?_⟩ fun _ _ => hclone
    · exact delivered_of_share hhook hup hsrc hlo h43 hs ht
    · exact dropped_of_share hhook hup hsrc hlo h43 hs
  · -- the frame is gone before the device is looked for
    constructor
    · rintro h ⟨v, hv, htag, hdev⟩
      obtain ⟨skb, w', hs', -⟩ := h.1 v hv htag hdev
      rw [hs] at hs'
      cases hs'
    · refine fun h => ⟨fun v hv htag hdev => ?_, fun _ => .inr ⟨w, hs, ?_⟩⟩
      · have hcan := h ⟨v, hv, htag, hdev⟩ hshared
        rw [hclone] at hcan
        cases hcan
      · rw [receive_hooked hhook]
        exact handleFrame_refused hup hsrc hlo hs n.vdevs

end Tag

/-- A frame that fills a gap of the mask is not passed on. -/
theorem receive_gap (ht : Tagged n.vdevs) (hgap : f.ethertype.toNat / 1024 ∈ [0x2F, 0x3B, 0x3F]) :
    n.receive k fuel e f ≠ some (.pass, e) := by
  have hp : f.ethertype.toNat / 1024 ∈ [0x2B, 0x2F, 0x3B, 0x3F] := List.mem_cons_of_mem _ hgap
  rw [receive_hooked hhook]
  rcases hs : skbShareCheck k e.world f.skb with ⟨_ | skb, w⟩
  · rw [handleFrame_refused hup hsrc hlo hs]
    nofun
  · rw [handleFrame_missed hup hsrc hlo hs hp fun v hv htag => absurd htag (tag_ne ht hgap hv)]
    nofun

/-- A frame without a tag is passed on if it does not fill a gap of the mask, and untouched if there
is no other reference to it. -/
theorem demultiplexed_other (ht : Tagged n.vdevs) (h43 : f.ethertype.toNat / 1024 ≠ 0x2B) :
    Demultiplexed n k fuel e f ↔ Undisturbed n k f := by
  rw [demultiplexed_iff]
  unfold Undisturbed
  refine and_congr (iff_of_true (absurd · h43) (absurd · h43)) (imp_congr_right fun _ => ?_)
  have hnot : ¬ f.loopback = true := by simp [hlo]
  rw [or_iff_right hnot]
  by_cases hgap : f.ethertype.toNat / 1024 ∈ [0x2F, 0x3B, 0x3F]
  · exact iff_of_false (receive_gap hhook hup hsrc hlo ht hgap) fun h => h.1 hgap
  rw [and_iff_right hgap, receive_hooked hhook]
  have hp : f.ethertype.toNat / 1024 ∉ [0x2B, 0x2F, 0x3B, 0x3F] :=
    List.not_mem_cons_of_ne_of_not_mem h43 hgap
  obtain ⟨hshared, hs⟩ | ⟨hshared, -, w, hs, hne⟩ | ⟨hshared, -, w, hs⟩ :=
    skbShareCheck_cases k e.world f.skb
  · rw [handleFrame_other hup hsrc hlo hs hp]
    exact iff_of_true rfl hshared
  · rw [handleFrame_other hup hsrc hlo hs hp, hshared]
    refine iff_of_false (fun heq => hne ?_) nofun
    obtain ⟨-, heq⟩ := Prod.mk.inj (Option.some.inj heq)
    exact congrArg Engine.world heq
  · rw [handleFrame_refused hup hsrc hlo hs, hshared]
    exact iff_of_false nofun nofun

end Outcomes

/-- **Demultiplexing.** After any run the tags of the virtual devices are distinct and have ten
bits, and a frame with a valid source that a hooked device receives while it is up gets where its
ethertype says, exactly if it is undisturbed. -/
theorem tag_demux_iff {w : Owned Net} (hw : w.state.vdevs = []) (acts : List Act) (k : Kernel)
    (fuel : ℕ) (e : Engine World) (f : EthFrame) (hup : f.up = true) (hsrc : f.validSource = true)
    (hhook : f.dev ∈ (acts.foldl (step .ethvlink) w).state.hookedBy .ethvlink) :
    let n := (acts.foldl (step .ethvlink) w).state
    ((n.vdevs.map Vdev.tag).Nodup ∧ (∀ v ∈ n.vdevs, v.tag.toNat < 1024) ∧
        Demultiplexed n k fuel e f) ↔ Undisturbed n k f := by
  have hstart : Tagged w.state.vdevs := by
    rw [hw]
    exact ⟨List.nodup_nil, nofun⟩
  have ht := tagged_run hstart acts
  refine (and_iff_right ht.nodup).trans ((and_iff_right ht.small).trans ?_)
  cases hlo : f.loopback with
  | true => exact demultiplexed_loopback hhook hup hlo
  | false =>
    by_cases h43 : f.ethertype.toNat / 1024 = 0x2B
    · exact demultiplexed_tag hhook hup hsrc hlo h43 ht
    · exact demultiplexed_other hhook hup hsrc hlo ht h43

/-- A frame for the device 0 with the given `h_proto`. -/
def frameWith (hProto : UInt16) : EthFrame where
  skb := ⟨⟨0, []⟩, 0, 60, 1, 0, 0, .ingress⟩
  dev := 0
  loopback := false
  validSource := true
  up := true
  hProto := hProto

/-- The device with tag 5 gets the frame with ethertype `0xAC05`. -/
theorem tag_demux_five :
    let add := Act.command ⟨.addDevice, 0, 5, nameB, nameA⟩ { devName := some nameB }
    let hook := Act.command ⟨.startHookDevice, 0, 0, nameB, nameA⟩ {}
    let n := ([add, hook].foldl (step .ethvlink) ⟨0, oneDevice⟩).state
    let e := Engine.idle (.of n.blocks)
    (n.vdevs.map Vdev.tag = [5] ∧ 0 ∈ n.hookedBy .ethvlink) ∧
      Demultiplexed n roomy 1 e (frameWith 0x05AC) := by
  intro add hook n e
  have hin : 0 ∈ n.hookedBy .ethvlink := by decide +kernel
  refine ⟨⟨by decide +kernel, hin⟩, ?_⟩
  refine ((tag_demux_iff rfl [add, hook] roomy 1 e (frameWith 0x05AC) rfl rfl hin).2 ?_).2.2
  exact ⟨fun _ => ⟨rfl, fun _ _ => rfl⟩, fun h => absurd (by decide) h⟩

/-- A frame with ethertype `0xBC05` is freed on a hooked device, though its ethertype is not one of
LANA. -/
theorem tag_demux_gap :
    let hook := Act.command ⟨.startHookDevice, 0, 0, nameB, nameA⟩ {}
    let n := ([hook].foldl (step .ethvlink) ⟨0, oneDevice⟩).state
    let f := frameWith 0x05BC
    f.ethertype = 0xBC05 ∧ 0 ∈ n.hookedBy .ethvlink ∧
      (n.receive roomy 1 (.idle (.of n.blocks)) f).map (fun r => (r.1, r.2.world.ledger)) =
        some (.consumed, [(⟨0, []⟩, .freed)]) := by
  intro hook n f
  exact ⟨by decide, by decide +kernel, by decide +kernel⟩

end Vlink

end Lana
