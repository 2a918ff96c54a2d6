import Lana.Fblock.Tables
import Lana.Library.Transition
import Lana.Vlink.Devices

/-!
# Pins and hooks

`__vlink_invoke` pins the module of a subsystem by what a callback returns: a `STOP` ends a hook
command with one more reference and an unhook command with one less.  The callbacks return `STOP`
also when there was nothing to do, `fb_eth_start_hook_dev` when it failed, and `fb_ethvlink_rm_dev`
unhooks the carrier of its last client without an unhook command.

A command keeps the pins equal to the number of hooked devices exactly when it is none of these
(`Proper`), so the pins of a run match its hooks all along exactly when every command is proper
(`pins_match_hooks_iff`).
-/

namespace Lana

namespace Vlink

variable {sub : Subsys} {n n' : Net} {d : Dev} {dev : NetDevice} {vmsg : VlinkMsg} {al : DevAlloc}

/-! ## The hooked devices -/

theorem devGetByName_some {name : CStr} (h : n.devGetByName name = some (d, dev)) :
    d < n.ndev ∧ n.dev d = some dev := by
  unfold Net.devGetByName at h
  obtain ⟨d', hd', hfound⟩ := List.exists_of_findSome?_eq_some h
  obtain ⟨dev', hdev', hname⟩ := Option.bind_eq_some_iff.1 hfound
  split_ifs at hname
  cases hname
  exact ⟨List.mem_range.1 hd', hdev'⟩

theorem mem_hookedBy :
    d ∈ n.hookedBy sub ↔ d < n.ndev ∧ (n.dev d).bind NetDevice.rxHandler = some sub.handler := by
  unfold Net.hookedBy
  rw [Finset.mem_filter, Finset.mem_range]

theorem hookedBy_setDev_hook (hd : d < n.ndev) (h : dev.rxHandler = some sub.handler) :
    (n.setDev d dev).hookedBy sub = insert d (n.hookedBy sub) := by
  ext e
  rw [Finset.mem_insert, mem_hookedBy, mem_hookedBy]
  by_cases he : e = d
  · simp [he, Net.setDev, hd, h]
  · simp [he, Net.setDev]

theorem hookedBy_setDev_unhook (h : dev.rxHandler ≠ some sub.handler) :
    (n.setDev d dev).hookedBy sub = (n.hookedBy sub).erase d := by
  ext e
  rw [Finset.mem_erase, mem_hookedBy, mem_hookedBy]
  by_cases he : e = d
  · simp [he, Net.setDev, h]
  · simp [he, Net.setDev]

theorem hookedBy_unregister : (n.unregister d).hookedBy sub = (n.hookedBy sub).erase d := by
  ext e
  rw [Finset.mem_erase, mem_hookedBy, mem_hookedBy]
  by_cases he : e = d
  · simp [he, Net.unregister]
  · simp [he, Net.unregister]

theorem hookedBy_register (h : dev.rxHandler = none) :
    (n.register dev).hookedBy sub = n.hookedBy sub := by
  ext e
  rw [mem_hookedBy, mem_hookedBy]
  by_cases he : e = n.ndev
  · simp [he, Net.register, Net.setDev, h]
  · have hlt : e < n.ndev + 1 ↔ e < n.ndev := Nat.lt_succ_iff_lt_or_eq.trans (or_iff_left he)
    simp [he, Net.register, Net.setDev, hlt]

theorem hookedBy_onDev {f : NetDevice → NetDevice}
    (hf : ∀ dev, (f dev).rxHandler = some sub.handler ↔ dev.rxHandler = some sub.handler) :
    (n.onDev d f).hookedBy sub = n.hookedBy sub := by
  ext e
  rw [mem_hookedBy, mem_hookedBy]
  by_cases he : e = d
  · subst he
    cases hdev : n.dev e with
    | none => simp [Net.onDev, hdev]
    | some dev => simp [Net.onDev, hdev, hf]
  · simp [he, Net.onDev]

/-! ## What the marks say -/

/-- The marks in `priv_flags` tell whether the subsystem has hooked the device. -/
def NetDevice.Marked (dev : NetDevice) : Subsys → Prop
  | .eth => (dev.realDevIsHooked = true ↔ dev.rxHandler = some .eth) ∧
      (dev.isVlinkDev = true ↔ dev.rxHandler = some .eth)
  | .ethvlink => (dev.realDevIsHooked = true ↔ dev.rxHandler = some .ethvlink) ∧
      (dev.isVlinkDev = true → dev.realDevIsHooked = false)

/-- What holds in every run: devices are numbered, and their marks are right. -/
structure Settled (sub : Subsys) (n : Net) : Prop where
  numbered : ∀ d dev, n.dev d = some dev → d < n.ndev
  marked : ∀ d dev, n.dev d = some dev → dev.Marked sub

namespace Settled

theorem setDev (h : Settled sub n) (hd : d < n.ndev) (hm : dev.Marked sub) :
    Settled sub (n.setDev d dev) := by
  refine ⟨fun e dev' he => ?_, fun e dev' he => ?_⟩ <;> unfold Net.setDev at he <;>
    by_cases hed : e = d
  · exact hed ▸ hd
  · exact h.numbered e dev' (by simpa [hed] using he)
  · have : dev = dev' := by simpa [hed] using he
    exact this ▸ hm
  · exact h.marked e dev' (by simpa [hed] using he)

theorem register (h : Settled sub n) (hm : dev.Marked sub) : Settled sub (n.register dev) := by
  have hwide : Settled sub { n with ndev := n.ndev + 1 } :=
    ⟨fun e dev' he => Nat.lt_succ_of_lt (h.numbered e dev' he), h.marked⟩
  exact hwide.setDev (Nat.lt_succ_self _) hm

theorem unregister (h : Settled sub n) (d : Dev) : Settled sub (n.unregister d) := by
  have hsome : ∀ e dev', (n.unregister d).dev e = some dev' → n.dev e = some dev' := by
    intro e dev' he
    unfold Net.unregister at he
    by_cases hed : e = d
    · simp [hed] at he
    · simpa [hed] using he
  exact ⟨fun e dev' he => h.numbered e dev' (hsome e dev' he),
    fun e dev' he => h.marked e dev' (hsome e dev' he)⟩

theorem onDev (h : Settled sub n) {f : NetDevice → NetDevice}
    (hf : ∀ dev, dev.Marked sub → (f dev).Marked sub) : Settled sub (n.onDev d f) := by
  have hsome : ∀ e dev', (n.onDev d f).dev e = some dev' →
      ∃ dev, n.dev e = some dev ∧ (dev' = dev ∨ dev' = f dev) := by
    intro e dev' he
    unfold Net.onDev at he
    by_cases hed : e = d
    · subst hed
      simp only [Function.update_self, Option.map_eq_some_iff] at he
      obtain ⟨dev, hdev, rfl⟩ := he
      exact ⟨dev, hdev, .inr rfl⟩
    · exact ⟨dev', by simpa [hed] using he, .inl rfl⟩
  refine ⟨fun e dev' he => ?_, fun e dev' he => ?_⟩ <;> obtain ⟨dev, hdev, hor⟩ := hsome e dev' he
  · exact h.numbered e dev hdev
  · rcases hor with rfl | rfl
    · exact h.marked e _ hdev
    · exact hf dev (h.marked e dev hdev)

/-- The lists of the modules and the blocks do not matter. -/
theorem congr (h : Settled sub n) (hdev : n'.dev = n.dev) (hndev : n'.ndev = n.ndev) :
    Settled sub n' := by
  refine ⟨fun e dev' he => ?_, fun e dev' he => ?_⟩
  · rw [hndev]
    exact h.numbered e dev' (hdev ▸ he)
  · exact h.marked e dev' (hdev ▸ he)

theorem mem_hookedBy (h : Settled sub n) (hd : n.dev d = some dev) :
    d ∈ n.hookedBy sub ↔ dev.rxHandler = some sub.handler := by
  rw [Vlink.mem_hookedBy, hd]
  exact and_iff_right (h.numbered d dev hd)

end Settled

theorem hookedBy_congr (hdev : n'.dev = n.dev) (hndev : n'.ndev = n.ndev) :
    n'.hookedBy sub = n.hookedBy sub := by
  unfold Net.hookedBy
  rw [hdev, hndev]

/-! ## Proper commands -/

/-- The commands that keep the pins right: a hook command hooks, an unhook command unhooks, and the
last virtual device on a real one is removed only when this one is not hooked. -/
def Proper (sub : Subsys) (n : Net) (vmsg : VlinkMsg) (al : DevAlloc) : Prop :=
  match sub, vmsg.cmd with
  | .ethvlink, .startHookDevice => ∀ r ∈ n.devGetByName vmsg.realName,
      r.2.isVlinkDev = false → r.2.realDevIsHooked = false
  | .ethvlink, .stopHookDevice => ∀ r ∈ n.devGetByName vmsg.realName,
      r.2.isVlinkDev = false → r.2.realDevIsHooked = true
  | .ethvlink, .rmDevice => ∀ r ∈ n.devGetByName vmsg.virtName,
      r.2.isVlinkDev = true → r.2.running = false →
        ∀ v ∈ n.vdevs.find? (·.self = r.1), n.blocks.refcnt v.fb ≤ 2 → n.clients v.realDev = 1 →
          ∀ dev ∈ n.dev v.realDev, dev.realDevIsHooked = false
  | .eth, .startHookDevice => ∀ r ∈ n.devGetByName vmsg.realName, r.2.isVlinkDev = false →
      al.node = true ∧ Constructible al.block n.blocks r.2.name ∧ r.2.rxHandler = none
  | _, _ => True

instance (sub : Subsys) (n : Net) (vmsg : VlinkMsg) (al : DevAlloc) :
    Decidable (Proper sub n vmsg al) := by
  unfold Proper
  split <;> infer_instance

/-! ## The callbacks -/

/-- A callback that settles its command: it keeps the invariant, and the pins follow the hooks
exactly under the condition `ok`. -/
structure Balanced (sub : Subsys) (cmd : VlinkCmd) (ok : Prop) (n : Net) (r : UInt32 × Net) :
    Prop where
  settled : Settled sub r.2
  ret : r.1 = vlinkRxEmerg ∨ r.1 = vlinkRxStop
  pins : ((r.2.hookedBy sub).card : ℤ) =
    (n.hookedBy sub).card + (if r.1 = vlinkRxStop then cmd.pin else 0) ↔ ok

namespace Balanced

variable {cmd : VlinkCmd} {ok : Prop}

theorem refused (h : Settled sub n') (hsame : n'.hookedBy sub = n.hookedBy sub) (hok : ok) :
    Balanced sub cmd ok n (vlinkRxEmerg, n') := by
  refine ⟨h, .inl rfl, ?_⟩
  have hret : vlinkRxEmerg ≠ vlinkRxStop := by decide
  rw [hsame, if_neg hret, add_zero]
  exact ⟨fun _ => hok, fun _ => rfl⟩

theorem same (h : Settled sub n') (hsame : n'.hookedBy sub = n.hookedBy sub)
    (hok : cmd.pin = 0 ↔ ok) : Balanced sub cmd ok n (vlinkRxStop, n') := by
  refine ⟨h, .inr rfl, ?_⟩
  rw [hsame, if_pos rfl, ← hok]
  omega

theorem hooked (h : Settled sub n') (hd : d ∉ n.hookedBy sub)
    (hnew : n'.hookedBy sub = insert d (n.hookedBy sub)) (hok : cmd.pin = 1 ↔ ok) :
    Balanced sub cmd ok n (vlinkRxStop, n') := by
  refine ⟨h, .inr rfl, ?_⟩
  rw [hnew, Finset.card_insert_of_notMem hd, if_pos rfl, ← hok]
  omega

theorem unhooked (h : Settled sub n') (hd : d ∈ n.hookedBy sub)
    (hnew : n'.hookedBy sub = (n.hookedBy sub).erase d) (hok : cmd.pin = -1 ↔ ok) :
    Balanced sub cmd ok n (vlinkRxStop, n') := by
  refine ⟨h, .inr rfl, ?_⟩
  have hcard := Finset.card_erase_add_one hd
  rw [hnew, if_pos rfl, ← hok]
  omega

end Balanced

/-- The sixteen bits of a message do not reach the marks. -/
theorem marked_vdev (name : CStr) (flags : UInt16) :
    NetDevice.Marked ⟨name, flags.toUInt32 ||| iffVlinkDev, false, none⟩ .ethvlink := by
  have hunhooked : NetDevice.realDevIsHooked
      ⟨name, flags.toUInt32 ||| iffVlinkDev, false, none⟩ = false := by
    rw [Bool.eq_false_iff, Ne, NetDevice.realDevIsHooked_iff, UInt32.toBitVec_or,
      BitVec.getLsbD_or, getLsbD_dev, UInt16.toBitVec_toUInt32, BitVec.getLsbD_setWidth,
      BitVec.getLsbD_of_ge _ _ (by decide)]
    decide
  exact ⟨by rw [hunhooked]; exact ⟨nofun, nofun⟩, fun _ => hunhooked⟩

theorem balanced_ethvlinkAddDev (h : Settled .ethvlink n) (hcmd : vmsg.cmd = .addDevice) :
    Balanced .ethvlink vmsg.cmd (Proper .ethvlink n vmsg al) n (fbEthvlinkAddDev al vmsg n) := by
  have hok : Proper .ethvlink n vmsg al := by
    unfold Proper
    rw [hcmd]
    trivial
  have hrefused : Balanced .ethvlink vmsg.cmd (Proper .ethvlink n vmsg al) n (vlinkRxEmerg, n) :=
    .refused h rfl hok
  unfold fbEthvlinkAddDev
  rw [if_neg (not_not.2 hcmd)]
  dsimp only
  repeat' split
  any_goals exact hrefused
  · exact .refused (h.congr rfl rfl) (hookedBy_congr rfl rfl) hok
  · refine .same (((h.congr rfl rfl).register (marked_vdev _ _)).congr rfl rfl)
      ((hookedBy_congr rfl rfl).trans ((hookedBy_register rfl).trans (hookedBy_congr rfl rfl))) ?_
    rw [hcmd]
    exact ⟨fun _ => hok, fun _ => rfl⟩

theorem balanced_ethvlinkStartHookDev (h : Settled .ethvlink n)
    (hcmd : vmsg.cmd = .startHookDevice) :
    Balanced .ethvlink vmsg.cmd (Proper .ethvlink n vmsg al) n (fbEthvlinkStartHookDev vmsg n) := by
  have hproper : Proper .ethvlink n vmsg al ↔ ∀ r ∈ n.devGetByName vmsg.realName,
      r.2.isVlinkDev = false → r.2.realDevIsHooked = false := by
    unfold Proper
    rw [hcmd]
  unfold fbEthvlinkStartHookDev
  rw [if_neg (not_not.2 hcmd)]
  rcases hfound : n.devGetByName vmsg.realName with _ | ⟨d, dev⟩
  · exact .refused h rfl (hproper.2 (by simp [hfound]))
  obtain ⟨hd, hdev⟩ := devGetByName_some hfound
  have hmark : dev.realDevIsHooked = true ↔ dev.rxHandler = some .ethvlink := (h.marked d dev hdev).1
  simp only [hfound, Option.mem_some_iff, forall_eq'] at hproper
  dsimp only
  split_ifs with hslave hbridged hhooked
  · exact .refused h rfl (hproper.2 (by simp [hslave]))
  · exact absurd (dev.devIsBridged_iff.1 hbridged).2 hslave
  · refine .same h rfl ?_
    rw [hproper, hcmd]
    simp [VlinkCmd.pin, hslave, hhooked]
  · have hok : Proper .ethvlink n vmsg al := hproper.2 fun _ => by simpa using hhooked
    unfold NetDevice.rxHandlerRegister
    split_ifs with hfree
    · have hout : d ∉ n.hookedBy .ethvlink := by
        rw [h.mem_hookedBy hdev, hfree]
        exact nofun
      refine .hooked (h.setDev hd ⟨?_, ?_⟩) hout (hookedBy_setDev_hook hd rfl) ?_
      · rw [NetDevice.realDevIsHooked_makeRealDevHooked]
        exact ⟨fun _ => rfl, fun _ => rfl⟩
      · rw [NetDevice.isVlinkDev_makeRealDevHooked]
        exact fun hs => absurd hs hslave
      · rw [hcmd]
        exact ⟨fun _ => hok, fun _ => rfl⟩
    · exact .refused h rfl hok

/-- A hooked carrier is unhooked. -/
theorem settled_unhook (h : Settled .ethvlink n) (hdev : n.dev d = some dev) :
    Settled .ethvlink (n.setDev d dev.rxHandlerUnregister.makeRealDevUnhooked) := by
  refine h.setDev (h.numbered d dev hdev) ⟨?_, fun _ => ?_⟩
  · rw [NetDevice.realDevIsHooked_makeRealDevUnhooked]
    exact ⟨nofun, nofun⟩
  · exact NetDevice.realDevIsHooked_makeRealDevUnhooked _

theorem balanced_ethvlinkStopHookDev (h : Settled .ethvlink n)
    (hcmd : vmsg.cmd = .stopHookDevice) :
    Balanced .ethvlink vmsg.cmd (Proper .ethvlink n vmsg al) n (fbEthvlinkStopHookDev vmsg n) := by
  have hproper : Proper .ethvlink n vmsg al ↔ ∀ r ∈ n.devGetByName vmsg.realName,
      r.2.isVlinkDev = false → r.2.realDevIsHooked = true := by
    unfold Proper
    rw [hcmd]
  unfold fbEthvlinkStopHookDev
  rw [if_neg (not_not.2 hcmd)]
  rcases hfound : n.devGetByName vmsg.realName with _ | ⟨d, dev⟩
  · exact .refused h rfl (hproper.2 (by simp [hfound]))
  obtain ⟨hd, hdev⟩ := devGetByName_some hfound
  have hmark : dev.realDevIsHooked = true ↔ dev.rxHandler = some .ethvlink := (h.marked d dev hdev).1
  simp only [hfound, Option.mem_some_iff, forall_eq'] at hproper
  dsimp only
  split_ifs with hslave hhooked
  · exact .refused h rfl (hproper.2 (by simp [hslave]))
  · refine .same h rfl ?_
    rw [hproper, hcmd]
    simp only [Bool.not_eq_true', Bool.not_eq_true] at hhooked hslave
    simp [VlinkCmd.pin, hslave, hhooked]
  · have hhooked : dev.realDevIsHooked = true := by simpa using hhooked
    refine .unhooked (settled_unhook h hdev) ((h.mem_hookedBy hdev).2 (hmark.1 hhooked))
      (hookedBy_setDev_unhook nofun) ?_
    rw [hproper, hcmd]
    exact ⟨fun _ _ => hhooked, fun _ => rfl⟩

/-- The last client leaves a hooked carrier, or the carrier stays as it was. -/
theorem detach_cases (n : Net) (realDev : Dev) :
    (n.clients realDev = 1 ∧ ∃ dev, n.dev realDev = some dev ∧ dev.realDevIsHooked = true ∧
        (if n.clients realDev = 1 then n.detach realDev else n) =
          n.setDev realDev dev.rxHandlerUnregister.makeRealDevUnhooked) ∨
      (n.clients realDev = 1 → ∀ dev ∈ n.dev realDev, dev.realDevIsHooked = false) ∧
        (if n.clients realDev = 1 then n.detach realDev else n) = n := by
  by_cases hlast : n.clients realDev = 1
  · rw [if_pos hlast]
    unfold Net.detach
    rcases hdev : n.dev realDev with _ | dev
    · exact .inr ⟨fun _ => by simp, rfl⟩
    · dsimp only
      split_ifs with hhooked
      · exact .inl ⟨hlast, dev, rfl, hhooked, rfl⟩
      · exact .inr ⟨fun _ => by simpa using hhooked, rfl⟩
  · rw [if_neg hlast]
    exact .inr ⟨fun h => absurd h hlast, rfl⟩

theorem balanced_ethvlinkRmDev (h : Settled .ethvlink n) (hcmd : vmsg.cmd = .rmDevice) :
    Balanced .ethvlink vmsg.cmd (Proper .ethvlink n vmsg al) n (fbEthvlinkRmDev vmsg n) := by
  have hproper : Proper .ethvlink n vmsg al ↔ ∀ r ∈ n.devGetByName vmsg.virtName,
      r.2.isVlinkDev = true → r.2.running = false →
        ∀ v ∈ n.vdevs.find? (·.self = r.1), n.blocks.refcnt v.fb ≤ 2 → n.clients v.realDev = 1 →
          ∀ dev ∈ n.dev v.realDev, dev.realDevIsHooked = false := by
    unfold Proper
    rw [hcmd]
  unfold fbEthvlinkRmDev
  rw [if_neg (not_not.2 hcmd)]
  rcases hfound : n.devGetByName vmsg.virtName with _ | ⟨d, dev⟩
  · exact .refused h rfl (hproper.2 (by simp [hfound]))
  obtain ⟨hd, hdev⟩ := devGetByName_some hfound
  simp only [hfound, Option.mem_some_iff, forall_eq'] at hproper
  dsimp only
  split
  · rename_i hslave
    exact .refused h rfl (hproper.2 fun hs => by simp [hs] at hslave)
  split
  · rename_i hrunning
    exact .refused h rfl (hproper.2 fun _ hr => by simp [hr] at hrunning)
  split
  · rename_i hv
    exact .refused h rfl (hproper.2 fun _ _ => by simp [hv])
  rename_i hslave hrunning _ v hv
  simp only [hv, Option.mem_some_iff, forall_eq'] at hproper
  split
  · rename_i hrefs
    exact .refused h rfl (hproper.2 fun _ _ hle => absurd hrefs (not_lt.2 hle))
  rename_i hrefs
  have hslave : dev.isVlinkDev = true := by simpa using hslave
  have hout : d ∉ n.hookedBy .ethvlink := by
    obtain ⟨hmark, hvirt⟩ := h.marked d dev hdev
    rw [h.mem_hookedBy hdev]
    exact fun hh => by simp [hvirt hslave] at hmark; exact hmark hh
  -- the carrier is let go, or stays as it was
  unfold Net.unstack
  obtain ⟨hlast, carrier, hcarrier, hhooked, heq⟩ | ⟨hkeep, heq⟩ := detach_cases n v.realDev
  · rw [heq]
    have hin : v.realDev ∈ n.hookedBy .ethvlink :=
      (h.mem_hookedBy hcarrier).2 ((h.marked _ _ hcarrier).1.1 hhooked)
    have hgone : (n.setDev v.realDev carrier.rxHandlerUnregister.makeRealDevUnhooked).hookedBy
        .ethvlink = (n.hookedBy .ethvlink).erase v.realDev := hookedBy_setDev_unhook nofun
    refine .unhooked (((settled_unhook h hcarrier).unregister d).congr rfl rfl) hin ?_ ?_
    · refine (hookedBy_congr rfl rfl).trans (hookedBy_unregister.trans ?_)
      rw [hgone, Finset.erase_eq_of_notMem]
      exact fun hd' => hout (Finset.mem_of_mem_erase hd')
    · rw [hproper, hcmd]
      refine ⟨fun hpin => absurd hpin (by decide), fun hp => ?_⟩
      have hfree := hp hslave (by simpa using hrunning) (not_lt.1 hrefs) hlast carrier hcarrier
      rw [hhooked] at hfree
      cases hfree
  · rw [heq]
    refine .same ((h.unregister d).congr rfl rfl) ?_ ?_
    · refine (hookedBy_congr rfl rfl).trans (hookedBy_unregister.trans ?_)
      exact Finset.erase_eq_of_notMem hout
    · rw [hproper, hcmd]
      exact ⟨fun _ _ _ _ => hkeep, fun _ => rfl⟩

theorem balanced_ethStartHookDev (h : Settled .eth n) (hcmd : vmsg.cmd = .startHookDevice) :
    Balanced .eth vmsg.cmd (Proper .eth n vmsg al) n (fbEthStartHookDev al vmsg n) := by
  have hproper : Proper .eth n vmsg al ↔ ∀ r ∈ n.devGetByName vmsg.realName,
      r.2.isVlinkDev = false →
        al.node = true ∧ Constructible al.block n.blocks r.2.name ∧ r.2.rxHandler = none := by
    unfold Proper
    rw [hcmd]
  unfold fbEthStartHookDev
  rw [if_neg (not_not.2 hcmd)]
  rcases hfound : n.devGetByName vmsg.realName with _ | ⟨d, dev⟩
  · exact .refused h rfl (hproper.2 (by simp [hfound]))
  obtain ⟨hd, hdev⟩ := devGetByName_some hfound
  obtain ⟨hmas, hslaves⟩ := h.marked d dev hdev
  simp only [hfound, Option.mem_some_iff, forall_eq'] at hproper
  dsimp only
  split
  · rename_i hslave
    exact .refused h rfl (hproper.2 (by simp [hslave]))
  rename_i hslave
  have hmine : dev.rxHandler ≠ some .eth := fun hh => hslave (hslaves.2 hh)
  rw [forall_prop_of_true (by simpa using hslave)] at hproper
  split
  · rename_i hbridged
    exact absurd (dev.devIsBridged_iff.1 hbridged).2 hslave
  split
  · rename_i hhooked
    exact absurd (hmas.1 hhooked) hmine
  split
  · rename_i hnode
    refine .same h rfl ?_
    rw [hproper, hcmd]
    simp only [Bool.not_eq_true'] at hnode
    simp [VlinkCmd.pin, hnode]
  rename_i hnode
  have hnode : al.node = true := by simpa using hnode
  have hbuilt := fbEthBuildFblock_isSome_iff
    { al.block with rxHandler := (dev.rxHandlerRegister .eth).isSome } n.blocks dev.name d
  have hfree : (dev.rxHandlerRegister .eth).isSome = true ↔ dev.rxHandler = none := by
    unfold NetDevice.rxHandlerRegister
    split_ifs with hnone <;> simp [hnone]
  have hproper : Proper .eth n vmsg al ↔ (fbEthBuildFblock
      { al.block with rxHandler := (dev.rxHandlerRegister .eth).isSome } n.blocks dev.name
        d).1.isSome = true := by
    rw [hproper, hbuilt, hfree, and_iff_right hnode]
    rfl
  split
  · rename_i hr
    refine .same (h.congr rfl rfl) (hookedBy_congr rfl rfl) ?_
    rw [hproper, hr, hcmd]
    exact ⟨nofun, nofun⟩
  · rename_i fb hr
    have hout : d ∉ n.hookedBy .eth := by
      rw [h.mem_hookedBy hdev]
      exact hmine
    have hmarked : ({ dev with rxHandler := some .eth } : NetDevice).makeDevBridged.Marked .eth := by
      have hbits := (NetDevice.devIsBridged_iff _).1 (NetDevice.devIsBridged_makeDevBridged
        { dev with rxHandler := some .eth })
      exact ⟨⟨fun _ => rfl, fun _ => hbits.1⟩, ⟨fun _ => rfl, fun _ => hbits.2⟩⟩
    refine .hooked ((h.setDev hd hmarked).congr rfl rfl) hout
      ((hookedBy_congr rfl rfl).trans (hookedBy_setDev_hook hd rfl)) ?_
    rw [hproper, hr, hcmd]
    exact ⟨fun _ => rfl, fun _ => rfl⟩

theorem balanced_ethStopHookDev (h : Settled .eth n) (hcmd : vmsg.cmd = .stopHookDevice) :
    Balanced .eth vmsg.cmd (Proper .eth n vmsg al) n (fbEthStopHookDev vmsg n) := by
  have hok : Proper .eth n vmsg al := by
    unfold Proper
    rw [hcmd]
    trivial
  have hrefused : Balanced .eth vmsg.cmd (Proper .eth n vmsg al) n (vlinkRxEmerg, n) :=
    .refused h rfl hok
  unfold fbEthStopHookDev
  rw [if_neg (not_not.2 hcmd)]
  rcases hfound : n.devGetByName vmsg.realName with _ | ⟨d, dev⟩
  · exact hrefused
  obtain ⟨hd, hdev⟩ := devGetByName_some hfound
  dsimp only
  split
  · exact hrefused
  rename_i hbridged
  have hbridged : dev.devIsBridged = true := by simpa using hbridged
  have hin : d ∈ n.hookedBy .eth :=
    (h.mem_hookedBy hdev).2 ((h.marked d dev hdev).1.1 (dev.devIsBridged_iff.1 hbridged).1)
  split
  · exact hrefused
  split
  · exact hrefused
  split
  · exact hrefused
  · have hmarked : dev.rxHandlerUnregister.makeDevUnbridged.Marked .eth := by
      refine ⟨?_, ?_⟩
      · rw [NetDevice.realDevIsHooked_makeDevUnbridged]
        exact ⟨nofun, nofun⟩
      · rw [NetDevice.isVlinkDev_makeDevUnbridged]
        exact ⟨nofun, nofun⟩
    refine .unhooked ((h.setDev hd hmarked).congr rfl rfl) hin
      ((hookedBy_congr rfl rfl).trans (hookedBy_setDev_unhook nofun)) ?_
    rw [hcmd]
    exact ⟨fun _ => hok, fun _ => rfl⟩

/-! ## Runs -/

/-- The pins of the owner match the hooks. -/
def Matched (sub : Subsys) (w : Owned Net) : Prop :=
  w.pins = (w.state.hookedBy sub).card ∧ 0 ≤ w.pins

instance (sub : Subsys) (w : Owned Net) : Decidable (Matched sub w) :=
  inferInstanceAs (Decidable (w.pins = (w.state.hookedBy sub).card ∧ 0 ≤ w.pins))

theorem matched_iff {w : Owned Net} : Matched sub w ↔ w.pins = (w.state.hookedBy sub).card := by
  unfold Matched
  constructor
  · exact fun h => h.1
  · exact fun h => ⟨h, by omega⟩

/-- A command runs into the one callback it is meant for. -/
theorem Balanced.invoke {w : Owned Net} {ok : Prop} {cb : Callback} {hn : List Callback}
    {ret : UInt32} (hw : Matched sub w)
    (h : Balanced sub vmsg.cmd ok w.state (sub.rx al cb vmsg w.state)) :
    let w' := (vlinkInvoke (sub.rx al) vmsg (cb :: hn) ret w).2
    Settled sub w'.state ∧ (Matched sub w' ↔ ok) := by
  have hpins := matched_iff.1 hw
  rcases hr : sub.rx al cb vmsg w.state with ⟨ret', n'⟩
  rw [hr] at h
  obtain ⟨hsettled, hret, hbal⟩ := h
  dsimp only at hsettled hret hbal ⊢
  rw [matched_iff, ← hbal]
  rcases hret with rfl | rfl
  · have hne : vlinkRxEmerg ≠ vlinkRxStop := by decide
    rw [vlinkInvoke_emerg hr, if_neg hne]
    exact ⟨hsettled, by dsimp only; omega⟩
  · rw [vlinkInvoke_stop hr, if_pos rfl]
    exact ⟨hsettled, by dsimp only; omega⟩

/-- The command a callback is for. -/
def Callback.cmd : Callback → VlinkCmd
  | .addDev => .addDevice
  | .rmDev => .rmDevice
  | .startHookDev => .startHookDevice
  | .stopHookDev => .stopHookDevice

theorem rx_nxt {cb : Callback} (h : vmsg.cmd ≠ cb.cmd) :
    sub.rx al cb vmsg n = (vlinkRxNxt, n) := by
  cases sub with
  | eth =>
    cases cb with
    | addDev | rmDev => rfl
    | startHookDev | stopHookDev => exact if_pos h
  | ethvlink =>
    cases cb with
    | addDev | rmDev | startHookDev | stopHookDev => exact if_pos h

/-- The callback of a command that the subsystem has one for. -/
theorem balanced_rx {cb : Callback} (hcb : cb ∈ sub.head) (hcmd : vmsg.cmd = cb.cmd)
    (h : Settled sub n) :
    Balanced sub vmsg.cmd (Proper sub n vmsg al) n (sub.rx al cb vmsg n) := by
  cases sub with
  | eth =>
    cases cb with
    | addDev | rmDev => exact absurd hcb (by decide)
    | startHookDev => exact balanced_ethStartHookDev h hcmd
    | stopHookDev => exact balanced_ethStopHookDev h hcmd
  | ethvlink =>
    cases cb with
    | addDev => exact balanced_ethvlinkAddDev h hcmd
    | rmDev => exact balanced_ethvlinkRmDev h hcmd
    | startHookDev => exact balanced_ethvlinkStartHookDev h hcmd
    | stopHookDev => exact balanced_ethvlinkStopHookDev h hcmd

/-- A command runs past the callbacks of other commands into its own, if there is one. -/
theorem invoke_balanced {w : Owned Net} (h : Settled sub w.state) (hw : Matched sub w) :
    ∀ (cbs : List Callback) (ret : UInt32), (∀ cb ∈ cbs, cb ∈ sub.head) →
      let w' := (vlinkInvoke (sub.rx al) vmsg cbs ret w).2
      Settled sub w'.state ∧ (Matched sub w' ↔
        ((∃ cb ∈ cbs, vmsg.cmd = cb.cmd) → Proper sub w.state vmsg al)) := by
  intro cbs
  induction cbs with
  | nil =>
    intro ret _
    exact ⟨h, ⟨fun _ => nofun, fun _ => hw⟩⟩
  | cons cb cbs ih =>
    intro ret hin
    by_cases hcmd : vmsg.cmd = cb.cmd
    · obtain ⟨hsettled, hiff⟩ := (balanced_rx (hin cb List.mem_cons_self) hcmd h).invoke hw
      refine ⟨hsettled, hiff.trans ?_⟩
      exact ⟨fun hok _ => hok, fun hok => hok ⟨cb, List.mem_cons_self, hcmd⟩⟩
    · rw [vlinkInvoke_nxt (rx_nxt hcmd)]
      obtain ⟨hsettled, hiff⟩ := ih vlinkRxNxt fun cb' hcb' => hin cb' (List.mem_cons_of_mem _ hcb')
      refine ⟨hsettled, hiff.trans ?_⟩
      simp only [List.exists_mem_cons_iff, hcmd, false_or]

/-- A command the subsystem has no callback for is proper. -/
theorem proper_of_no_callback (h : ¬ ∃ cb ∈ sub.head, vmsg.cmd = cb.cmd) :
    Proper sub n vmsg al := by
  have hne : ∀ cb ∈ sub.head, vmsg.cmd ≠ cb.cmd := fun cb hcb heq => h ⟨cb, hcb, heq⟩
  unfold Proper
  split
  · exact absurd ‹_› (hne .startHookDev (by decide))
  · exact absurd ‹_› (hne .stopHookDev (by decide))
  · exact absurd ‹_› (hne .rmDev (by decide))
  · exact absurd ‹_› (hne .startHookDev (by decide))
  · trivial

/-- The steps that keep the pins right. -/
def ProperAct (sub : Subsys) (w : Owned Net) : Act → Prop
  | .command vmsg al => Proper sub w.state vmsg al
  | .plug _ | .running .. | .foreign .. | .blocks _ => True

instance (sub : Subsys) (w : Owned Net) : ∀ a : Act, Decidable (ProperAct sub w a)
  | .command vmsg al => inferInstanceAs (Decidable (Proper sub w.state vmsg al))
  | .plug _ | .running .. | .foreign .. | .blocks _ => inferInstanceAs (Decidable True)

/-- A handler of another module comes to a device without one, and goes from there. -/
theorem foreign_rxHandler (b : Bool) :
    (dev.foreign b).rxHandler = some sub.handler ↔ dev.rxHandler = some sub.handler := by
  have hother : RxHandler.other ≠ sub.handler := by cases sub <;> decide
  cases b with
  | true =>
    simp only [NetDevice.foreign, NetDevice.rxHandlerRegister]
    split_ifs with hnone
    · simp [hnone, hother]
    · rfl
  | false =>
    simp only [NetDevice.foreign, NetDevice.rxHandlerUnregister]
    split_ifs with hown
    · simp [hown, hother]
    · rfl

theorem foreign_privFlags (b : Bool) : (dev.foreign b).privFlags = dev.privFlags := by
  cases b with
  | true =>
    simp only [NetDevice.foreign, NetDevice.rxHandlerRegister]
    split_ifs <;> rfl
  | false =>
    simp only [NetDevice.foreign, NetDevice.rxHandlerUnregister]
    split_ifs <;> rfl

theorem NetDevice.Marked.congr {dev' : NetDevice} (h : dev.Marked sub)
    (hflags : dev'.privFlags = dev.privFlags)
    (hhandler : dev'.rxHandler = some sub.handler ↔ dev.rxHandler = some sub.handler) :
    dev'.Marked sub := by
  have hhooked : dev'.realDevIsHooked = dev.realDevIsHooked := by
    unfold NetDevice.realDevIsHooked
    rw [hflags]
  have hslave : dev'.isVlinkDev = dev.isVlinkDev := by
    unfold NetDevice.isVlinkDev
    rw [hflags]
  cases sub with
  | eth => exact ⟨by rw [hhooked]; exact h.1.trans hhandler.symm,
      by rw [hslave]; exact h.2.trans hhandler.symm⟩
  | ethvlink => exact ⟨by rw [hhooked]; exact h.1.trans hhandler.symm,
      by rw [hhooked, hslave]; exact h.2⟩

/-- A device without marks and without a handler of the subsystem. -/
theorem marked_plain (hmas : dev.realDevIsHooked = false) (hslave : dev.isVlinkDev = false)
    (hhandler : dev.rxHandler ≠ some sub.handler) : dev.Marked sub := by
  cases sub with
  | eth => exact ⟨by rw [hmas]; exact ⟨nofun, fun h => absurd h hhandler⟩,
      by rw [hslave]; exact ⟨nofun, fun h => absurd h hhandler⟩⟩
  | ethvlink => exact ⟨by rw [hmas]; exact ⟨nofun, fun h => absurd h hhandler⟩, fun _ => hmas⟩

/-- **Step.** The pins match after a step exactly when it is proper. -/
theorem step_matched {w : Owned Net} (h : Settled sub w.state) (hw : Matched sub w) (a : Act) :
    Settled sub (step sub w a).state ∧ (Matched sub (step sub w a) ↔ ProperAct sub w a) := by
  -- around the subsystem no hook changes
  have hkeep : ∀ n', Settled sub n' → n'.hookedBy sub = w.state.hookedBy sub →
      Settled sub n' ∧ (Matched sub { w with state := n' } ↔ True) := by
    intro n' hn' hsame
    refine ⟨hn', iff_true_intro ?_⟩
    unfold Matched at hw ⊢
    rwa [hsame]
  cases a with
  | command vmsg al =>
    obtain ⟨hsettled, hiff⟩ := invoke_balanced h hw sub.head 0 fun _ hcb => hcb
    refine ⟨hsettled, hiff.trans ⟨fun hok => ?_, fun hok _ => hok⟩⟩
    by_cases hcb : ∃ cb ∈ sub.head, vmsg.cmd = cb.cmd
    · exact hok hcb
    · exact proper_of_no_callback hcb
  | plug name =>
    have hmas : (0 : UInt32) &&& iffVlinkMas ≠ iffVlinkMas := by decide
    have hslave : (0 : UInt32) &&& iffVlinkDev ≠ iffVlinkDev := by decide
    exact hkeep _ (h.register (marked_plain (decide_eq_false hmas) (decide_eq_false hslave) nofun))
      (hookedBy_register rfl)
  | running d b =>
    exact hkeep _ (h.onDev fun dev hm => hm.congr rfl Iff.rfl) (hookedBy_onDev fun dev => Iff.rfl)
  | foreign d b =>
    exact hkeep _ (h.onDev fun dev hm => hm.congr (foreign_privFlags b) (foreign_rxHandler b))
      (hookedBy_onDev fun dev => foreign_rxHandler b)
  | blocks s => exact hkeep _ (h.congr rfl rfl) (hookedBy_congr rfl rfl)

/-- No device is hooked by a subsystem or stacked on another one. -/
def Unhooked (n : Net) : Prop :=
  ∀ d dev, n.dev d = some dev → d < n.ndev ∧ dev.realDevIsHooked = false ∧
    dev.isVlinkDev = false ∧ dev.rxHandler ∈ [none, some .other]

theorem Unhooked.rxHandler_ne (h : Unhooked n) (hdev : n.dev d = some dev) :
    dev.rxHandler ≠ some sub.handler := by
  intro heq
  have hmem := (h d dev hdev).2.2.2
  rw [heq] at hmem
  cases sub <;> simp [Subsys.handler] at hmem

theorem Unhooked.settled (h : Unhooked n) : Settled sub n := by
  refine ⟨fun d dev hdev => (h d dev hdev).1, fun d dev hdev => ?_⟩
  obtain ⟨-, hmas, hslave, -⟩ := h d dev hdev
  exact marked_plain hmas hslave (h.rxHandler_ne hdev)

theorem Unhooked.hookedBy (h : Unhooked n) : n.hookedBy sub = ∅ := by
  rw [Finset.eq_empty_iff_forall_notMem]
  intro d hd
  rw [mem_hookedBy] at hd
  obtain ⟨dev, hdev, hhandler⟩ := Option.bind_eq_some_iff.1 hd.2
  exact h.rxHandler_ne hdev hhandler

/-- **Pins match hooks.** Once the subsystem is registered, the references that `__vlink_invoke` holds
on its module equal the number of devices it has hooked, all along a run, exactly when every step of
the run is proper. -/
theorem pins_match_hooks_iff (sub : Subsys) {n : Net} (h : Unhooked n) (acts : List Act) :
    Transition.Allowed (step sub) (ProperAct sub) ⟨0, n⟩ acts ↔
      ∀ before, before <+: acts → Matched sub (before.foldl (step sub) ⟨0, n⟩) := by
  have hstart : Matched sub ⟨0, n⟩ := by
    rw [matched_iff, h.hookedBy]
    rfl
  exact Transition.allowed_iff_forall_prefix (I := fun w : Owned Net => Settled sub w.state)
    (fun w a hI hM => step_matched hI hM a) h.settled hstart

/-- One real device and no block. -/
def oneDevice : Net where
  dev d := if d = 0 then some ⟨nameA, 0, false, none⟩ else none
  ndev := 1
  vdevs := []
  ethDevs := []
  blocks := State.init oneCpu

theorem unhooked_oneDevice : Unhooked oneDevice := by
  intro d dev h
  unfold oneDevice at h
  dsimp only at h
  split_ifs at h with hd
  cases h
  exact ⟨hd ▸ Nat.zero_lt_one, by decide, by decide, by simp⟩

/-- Hooking and unhooking a device is proper. -/
theorem pins_match_hooks_once :
    let hook := Act.command ⟨.startHookDevice, 0, 0, nameB, nameA⟩ {}
    let unhook := Act.command ⟨.stopHookDevice, 0, 0, nameB, nameA⟩ {}
    Transition.Allowed (step .ethvlink) (ProperAct .ethvlink) ⟨0, oneDevice⟩ [hook, unhook] ∧
      Matched .ethvlink ([hook].foldl (step .ethvlink) ⟨0, oneDevice⟩) := by
  intro hook unhook
  have hok : Transition.Allowed (step .ethvlink) (ProperAct .ethvlink) ⟨0, oneDevice⟩
      [hook, unhook] := by
    decide +kernel
  exact ⟨hok, (pins_match_hooks_iff .ethvlink unhooked_oneDevice _).1 hok [hook] (by simp)⟩

/-- Pins and hooks after an unhook command for a device that is not hooked, after two hook commands
for one device, after the removal of the only virtual device on a hooked one, and after a hook
command of `fb_eth.c` that failed for want of memory. -/
theorem pins_and_hooks_differ :
    let balance := fun (sub : Subsys) (acts : List Act) =>
      let w := acts.foldl (step sub) ⟨0, oneDevice⟩
      (w.pins, (w.state.hookedBy sub).card)
    let hook := Act.command ⟨.startHookDevice, 0, 0, nameB, nameA⟩ {}
    let unhook := Act.command ⟨.stopHookDevice, 0, 0, nameB, nameA⟩ {}
    let add := Act.command ⟨.addDevice, 0, 5, nameB, nameA⟩ { devName := some nameB }
    let rm := Act.command ⟨.rmDevice, 0, 5, nameB, nameA⟩ {}
    Unhooked oneDevice ∧ balance .ethvlink [unhook] = (-1, 0) ∧
      balance .ethvlink [hook, hook] = (2, 1) ∧ balance .ethvlink [add, hook, rm] = (1, 0) ∧
      balance .eth [.command ⟨.startHookDevice, 0, 0, nameB, nameA⟩ { node := false }] = (1, 0) := by
  intro balance hook unhook add rm
  exact ⟨unhooked_oneDevice, by decide +kernel, by decide +kernel, by decide +kernel,
    by decide +kernel⟩

end Vlink

end Lana
