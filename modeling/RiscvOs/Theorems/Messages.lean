import RiscvOs.Lib.Channel
import RiscvOs.Theorems.Processes

/-!
# Messages between processes

An inbox is a channel with one place: what `sys_ipc_recv` delivers are the messages that `sys_ipc_send` has
accepted, in their order. A message of one byte is lost, and not every pid leads to its process.
-/

namespace RiscvOs

open Lts Outcome Channel

variable {L : Layout} {fs : Initramfs} {s s' s₀ : Machine} {t : Trap} {l : List Trap} {k k' : Kernel}
  {i d : Fin procsMax} {destPid : Int} {buf size maxSize senderPid : Nat} {bytes : List UInt8}

/-- A message, as its sender gives it. -/
structure Message where
  sender : Nat
  bytes : List UInt8
  deriving Repr, DecidableEq

/-- The message in an inbox. -/
def IpcMessage.content (msg : IpcMessage) : Option Message :=
  if msg.pending then some ⟨msg.sender, (List.range msg.size).map msg.data⟩ else none

/-- The history of an inbox, since the process in the slot was created: the messages that were accepted for
it, how many of them it has taken, and those that it was given with a result that is no error. -/
structure Mailbox extends History Message where
  delivered : List Message := []

abbrev Mail := Fin procsMax → Mailbox

namespace Mailbox

def put (m : Mailbox) (msg : Message) : Mailbox := { m with toHistory := m.toHistory.put msg }

/-- A `sys_ipc_recv` that finds `msg`, has room for `maxSize` bytes and returns `ret`. -/
def take (m : Mailbox) (msg : IpcMessage) (maxSize ret : Nat) : Mailbox where
  toHistory := m.toHistory.take
  delivered :=
    if maxMsgSize ≤ maxSize ∧ ret < 2 ^ 63 then m.delivered ++ [⟨msg.sender, msg.copied maxSize⟩]
    else m.delivered

end Mailbox

/-! ## The log of a run -/

/-- The history of the inboxes after a system call. -/
def Kernel.record (L : Layout) (k : Kernel) (mail : Mail) : Call → Mail
  | .fork =>
    match k.freeSlot with
    | some c => Function.update mail c {}
    | none => mail
  | .ipcSend destPid buf size =>
    match k.sysIpcSend destPid buf size, getProcByPid destPid, k.loadBytes buf size with
    | .ok (.value 0, _), some d, .ok bytes =>
      Function.update mail d ((mail d).put ⟨(k.procs k.cur).pid, bytes⟩)
    | _, _, _ => mail
  | .ipcRecv buf maxSize senderPid =>
    let msg := (k.procs k.cur).inbox
    match msg.pending, k.sysIpcRecv L buf maxSize senderPid with
    | true, .ok (.value ret, _) => Function.update mail k.cur ((mail k.cur).take msg maxSize ret)
    | _, _ => mail
  | _ => mail

namespace Machine

def record (L : Layout) (s : Machine) (t : Trap) (mail : Mail) : Mail :=
  match t.cause, callOf t.frame with
  | .ecall, some call => (s.inKernel L t).record L mail call
  | _, _ => mail

/-- A step of the machine, with the history of the inboxes. -/
def LoggedStep (L : Layout) (fs : Initramfs) (s : Machine × Mail) (t : Trap) (s' : Machine × Mail) : Prop :=
  s.1.Step L fs t s'.1 ∧ s'.2 = s.1.record L t s.2

end Machine

/-! ## What the history says about an inbox -/

theorem IpcMessage.content_of_not_pending {msg : IpcMessage} (h : msg.pending = false) : msg.content = none := by
  simp [IpcMessage.content, h]

theorem IpcMessage.content_of_pending {msg : IpcMessage} (h : msg.pending = true) :
    msg.content = some ⟨msg.sender, (List.range msg.size).map msg.data⟩ := by
  simp [IpcMessage.content, h]

/-- What the sender gave is what the inbox contains. -/
theorem IpcMessage.content_fill (msg : IpcMessage) (bytes : List UInt8) (sender : Nat) :
    (msg.fill bytes sender).content = some ⟨sender, bytes⟩ := by
  rw [content_of_pending rfl]
  refine congrArg (fun b => some (Message.mk sender b)) (List.ext_getElem (by simp [fill]) fun j _ hj => ?_)
  simp [fill, hj]

/-- With room for every message, all bytes of it are copied. -/
theorem IpcMessage.copied_eq {msg : IpcMessage} (h : msg.size ≤ maxSize) :
    msg.copied maxSize = (List.range msg.size).map msg.data := by
  rw [IpcMessage.copied, Nat.min_eq_left h]

namespace Mailbox

/-- The history belongs to this inbox. What was delivered are messages that were taken, in their order. -/
structure Tracks (m : Mailbox) (msg : IpcMessage) : Prop where
  holds : m.toHistory.Holds msg.content
  order : m.delivered.Sublist (m.accepted.take m.taken)
  size : msg.pending → msg.size ≤ maxMsgSize

theorem tracks_nil : Tracks {} {} where
  holds := History.holds_nil
  order := List.Sublist.refl _
  size := fun h => by cases h

namespace Tracks

variable {m : Mailbox} {msg : IpcMessage} {sender ret : Nat}

theorem put (h : Tracks m msg) (hp : msg.pending = false) (hb : bytes.length ≤ maxMsgSize) :
    Tracks (m.put ⟨sender, bytes⟩) (msg.fill bytes sender) where
  holds := by
    have hh := h.holds
    rw [IpcMessage.content_of_not_pending hp] at hh
    rw [IpcMessage.content_fill]
    exact hh.put
  order := by
    show m.delivered.Sublist ((m.accepted ++ [_]).take m.taken)
    rw [List.take_append_of_le_length h.holds.le]
    exact h.order
  size := fun _ => hb

/-- The message that is taken is the next one in the history. -/
theorem next (h : Tracks m msg) (hp : msg.pending = true) :
    m.accepted[m.taken]? = some ⟨msg.sender, (List.range msg.size).map msg.data⟩ := by
  have hh := h.holds
  rw [IpcMessage.content_of_pending hp] at hh
  exact hh.next

theorem take (h : Tracks m msg) (hp : msg.pending = true) :
    Tracks (m.take msg maxSize ret) { msg with pending := false } where
  holds := by
    have hh := h.holds
    rw [IpcMessage.content_of_pending hp] at hh
    exact hh.take
  order := by
    show (ite _ _ _ : List Message).Sublist (m.accepted.take (m.taken + 1))
    rw [List.take_add_one, h.next hp]
    split
    · rename_i hr
      rw [IpcMessage.copied_eq ((h.size hp).trans hr.1)]
      exact h.order.append (.refl _)
    · exact h.order.trans (List.sublist_append_left _ _)
  size := fun h => by cases h

end Tracks

end Mailbox

/-! ## Every trap keeps the history -/

/-- The histories belong to the inboxes of the table. -/
def Posted (t : Table) (mail : Mail) : Prop := ∀ i, (mail i).Tracks (t.slots i).inbox

namespace Posted

variable {t t' : Table} {mail : Mail} {m : Mailbox} {msg : IpcMessage}

theorem congr (h : Posted t mail) (hi : ∀ i, (t'.slots i).inbox = (t.slots i).inbox) : Posted t' mail := by
  intro i
  rw [hi]
  exact h i

/-- One inbox is changed. -/
theorem update (h : Posted t mail) (hm : m.Tracks msg) (hd : (t'.slots d).inbox = msg)
    (ho : ∀ i, i ≠ d → (t'.slots i).inbox = (t.slots i).inbox) : Posted t' (Function.update mail d m) := by
  intro i
  by_cases hi : i = d
  · subst hi
    rw [Function.update_self, hd]
    exact hm
  · rw [Function.update_of_ne hi, ho i hi]
    exact h i

end Posted

namespace Table

variable {t : Table}

theorem inbox_set {p : Slot} (h : p.inbox = (t.slots d).inbox) (i : Fin procsMax) :
    ((t.set d p).slots i).inbox = (t.slots i).inbox := by
  by_cases hi : i = d
  · subst hi
    rw [slots_set_self, h]
  · rw [slots_set_of_ne hi]

theorem inbox_yield (i : Fin procsMax) : (t.yield.slots i).inbox = (t.slots i).inbox :=
  (t.yield_rescheduled i).inbox

theorem inbox_exec (i : Fin procsMax) : (t.exec.slots i).inbox = (t.slots i).inbox :=
  (inbox_yield i).trans (inbox_set (p := { t.slots t.current with state := .running }) rfl i)

end Table

namespace Machine

/-- A system call that returns to a process has a result. -/
theorem trap_call {call : Call} (h : s.trap L fs t = .ok s') (hcause : t.cause = .ecall)
    (hcall : callOf t.frame = some call) :
    ∃ r, (s.inKernel L t).handleSyscall L fs s.input t.now call = .ok r := by
  unfold trap at h
  simp only [hcause, hcall] at h
  obtain ⟨r, hr, -⟩ := bind_eq_ok.mp h
  exact ⟨r, hr⟩

theorem record_timer {mail : Mail} (hcause : t.cause = .timer) : s.record L t mail = mail := by
  unfold record
  rw [hcause]

theorem record_ecall {mail : Mail} {call : Call} (hcause : t.cause = .ecall) (hcall : callOf t.frame = some call) :
    s.record L t mail = (s.inKernel L t).record L mail call := by
  unfold record
  rw [hcause, hcall]

end Machine

namespace Kernel

variable {mail : Mail}

theorem record_quiet {call : Call} (h : call.Quiet) : k.record L mail call = mail := by
  cases call <;> first | rfl | exact h.elim

theorem record_fork (h : k.table.freeSlot = some d) : k.record L mail .fork = Function.update mail d {} := by
  unfold record
  rw [show k.freeSlot = some d from h]

theorem record_forkNone (h : k.table.freeSlot = none) : k.record L mail .fork = mail := by
  unfold record
  rw [show k.freeSlot = none from h]

/-- A message that is accepted. -/
theorem sysIpcSend_ok (hd : destPid = (d : Nat) + 1) (hlt : destPid < procsMax)
    (hp : (k.procs d).inbox.pending = false) (hsize : size ≤ maxMsgSize) (hb : k.loadBytes buf size = .ok bytes) :
    k.sysIpcSend destPid buf size =
      .ok (.value 0, k.setInbox d ((k.procs d).inbox.fill bytes (k.procs k.cur).pid)) := by
  unfold sysIpcSend
  rw [if_neg (by omega), getProcByPid_eq_some.mpr hd]
  simp only [hp, if_neg (Nat.not_lt.mpr hsize), Bool.false_eq_true, if_false, hb, ok_bind]

/-- The history after a send that is accepted. -/
theorem record_send (hd : destPid = (d : Nat) + 1) (hlt : destPid < procsMax)
    (hp : (k.procs d).inbox.pending = false) (hsize : size ≤ maxMsgSize) (hb : k.loadBytes buf size = .ok bytes) :
    k.record L mail (.ipcSend destPid buf size) =
      Function.update mail d ((mail d).put ⟨(k.procs k.cur).pid, bytes⟩) := by
  simp only [record, sysIpcSend_ok hd hlt hp hsize hb, getProcByPid_eq_some.mpr hd, hb]

theorem record_sendNone {a0 : Nat} (h : k.sysIpcSend destPid buf size = .ok (.value a0, k)) (h0 : a0 ≠ 0) :
    k.record L mail (.ipcSend destPid buf size) = mail := by
  simp only [record, h]
  split
  · rename_i ha _ _
    exact absurd (SysRet.value.inj (Prod.mk.inj (Except.ok.inj ha)).1) h0
  · rfl

theorem record_recvNone (h : (k.procs k.cur).inbox.pending = false) :
    k.record L mail (.ipcRecv buf maxSize senderPid) = mail := by
  simp only [record, h]

theorem record_recv {ret : Nat} (h : (k.procs k.cur).inbox.pending = true)
    (hr : k.sysIpcRecv L buf maxSize senderPid = .ok (.value ret, k')) :
    k.record L mail (.ipcRecv buf maxSize senderPid) =
      Function.update mail k.cur ((mail k.cur).take (k.procs k.cur).inbox maxSize ret) := by
  simp only [record, h, hr]

end Kernel

namespace Machine

theorem Step.posted {mail : Mail} (hc : s.kernel.currentProc.isSome) (hm : Posted s.kernel.table mail)
    (h : s.Step L fs t s') : Posted s'.kernel.table (s.record L t mail) := by
  obtain ⟨ev, he, ht⟩ := trap_effect hc h.2
  have htable := inKernel_table (L := L) (t := t) hc
  rw [ht]
  rw [← htable] at hm ⊢
  cases he with
  | timer hcause =>
      rw [record_timer hcause]
      exact hm.congr Table.inbox_yield
  | ecall hcause hcall he =>
      rw [record_ecall hcause hcall]
      have hen := he.enabled
      cases he with
      | quiet hq =>
          rw [Kernel.record_quiet hq]
          exact hm
      | read | execNone _ => exact hm
      | readOn _ | readLeft _ | yield | waitLeft _ _ => exact hm.congr Table.inbox_yield
      | exec _ => exact hm.congr Table.inbox_exec
      | exit | wait _ => exact hm.congr (Table.inbox_set rfl)
      | forkNone hf =>
          rw [Kernel.record_forkNone hf]
          exact hm
      | fork hf =>
          rw [Kernel.record_fork hf]
          exact hm.update Mailbox.tracks_nil (congrArg Slot.inbox Table.slots_set_self) fun i hi =>
            congrArg Slot.inbox (Table.slots_set_of_ne hi)
      | sendNone hs h0 =>
          rw [Kernel.record_sendNone hs (by rcases h0 with rfl | rfl <;> decide)]
          exact hm
      | @send _ _ _ d bytes hd hlt hp hsize hb =>
          rw [Kernel.record_send hd hlt hp hsize hb]
          exact hm.update ((hm d).put hp hen.2) (congrArg Slot.inbox Table.slots_set_self) fun i hi =>
            congrArg Slot.inbox (Table.slots_set_of_ne hi)
      | recvNone hp =>
          rw [Kernel.record_recvNone hp]
          exact hm
      | @recv buf maxSize senderPid hp =>
          obtain ⟨r, hr⟩ := trap_call h.2 hcause hcall
          simp only [Kernel.handleSyscall, bind_eq_ok, Prod.exists] at hr
          obtain ⟨ret, k', hr, -⟩ := hr
          obtain ⟨ret, rfl⟩ : ∃ n, ret = .value n := by
            rcases Kernel.sysIpcRecv_table hr with ⟨-, rfl, -⟩ | ⟨-, -, rfl⟩
            · exact ⟨_, rfl⟩
            · exact ⟨_, rfl⟩
          rw [Kernel.record_recv hp hr]
          exact hm.update ((hm _).take hp) (congrArg Slot.inbox Table.slots_set_self) fun i hi =>
            congrArg Slot.inbox (Table.slots_set_of_ne hi)

end Machine

/-! ## Receiving -/

/-- The bytes of the message are stored at `buf`, and the pid of its sender at `senderPid`. -/
def Kernel.Delivers (L : Layout) (k : Kernel) (buf senderPid : Nat) (msg : Message) (k' : Kernel) : Prop :=
  ∃ k₁ k₂, k.storeBytes L buf msg.bytes = .ok k₁ ∧ k₁.storeSender L senderPid msg.sender = .ok k₂ ∧
    k'.phys = k₂.phys

theorem sext32_of_lt {n : Nat} (h : n < 2 ^ 31) : sext32 n = n := by
  unfold sext32
  simp only
  rw [Nat.mod_eq_of_lt (by omega), if_pos h]

theorem neg64_ge {n : Nat} (h : n ≤ 2 ^ 63) : 2 ^ 63 ≤ neg64 n := by
  unfold neg64
  omega

/-- What `sys_ipc_recv` does when it finds a message. -/
theorem Kernel.sysIpcRecv_pending {ret : SysRet} (hp : (k.procs k.cur).inbox.pending = true)
    (h : k.sysIpcRecv L buf maxSize senderPid = .ok (ret, k')) :
    k.Delivers L buf senderPid ⟨(k.procs k.cur).inbox.sender, (k.procs k.cur).inbox.copied maxSize⟩ k' := by
  unfold sysIpcRecv at h
  simp only [hp, Bool.not_true, Bool.false_eq_true, if_false, bind_eq_ok, Except.ok.injEq, Prod.mk.injEq] at h
  obtain ⟨k₁, h1, k₂, h2, -, rfl⟩ := h
  exact ⟨k₁, k₂, h1, h2, rfl⟩

/-- The messages in a state of the machine and in what may come next. -/
structure Machine.Fifo (L : Layout) (s : Machine) (mail : Mail) : Prop where
  /-- what was accepted and not taken is in the inbox as it was sent -/
  kept : ∀ i, (mail i).Holds (s.kernel.procs i).inbox.content
  /-- nothing is delivered twice, and the order is the one in which the messages were accepted -/
  order : ∀ i, (mail i).delivered.Sublist ((mail i).accepted.take (mail i).taken)
  /-- a call with a result that is no error delivers the next message -/
  delivers : ∀ (t : Trap) (buf maxSize senderPid ret : Nat) (k' : Kernel), t.cause = .ecall →
    callOf t.frame = some (.ipcRecv buf maxSize senderPid) → maxMsgSize ≤ maxSize →
    (s.inKernel L t).sysIpcRecv L buf maxSize senderPid = .ok (.value ret, k') → ret < 2 ^ 63 →
      ∃ msg, (mail s.kernel.cur).accepted[(mail s.kernel.cur).taken]? = some msg ∧
        ret = msg.bytes.length ∧ (s.inKernel L t).Delivers L buf senderPid msg k' ∧
        (s.record L t mail s.kernel.cur).taken = (mail s.kernel.cur).taken + 1 ∧
        (s.record L t mail s.kernel.cur).delivered = (mail s.kernel.cur).delivered ++ [msg]

theorem Posted.fifo {mail : Mail} (h : Posted s.kernel.table mail) : s.Fifo L mail := by
  refine ⟨fun i => (h i).holds, fun i => (h i).order, fun t buf maxSize senderPid ret k' hcause hcall hmax hr hret => ?_⟩
  have hcur : (s.inKernel L t).cur = s.kernel.cur := rfl
  have htr : (mail s.kernel.cur).Tracks ((s.inKernel L t).procs s.kernel.cur).inbox := h s.kernel.cur
  rcases Kernel.sysIpcRecv_table hr with ⟨-, hval, -⟩ | ⟨hp, -, hval⟩
  · have := neg64_ge (n := 1) (by decide)
    rw [SysRet.value.inj hval] at hret
    omega
  · have hdel := Kernel.sysIpcRecv_pending hp hr
    have hrec : s.record L t mail = _ := Machine.record_ecall hcause hcall
    rw [Kernel.record_recv hp hr] at hrec
    rw [hcur] at hp hdel hrec hval
    have hsize := htr.size hp
    have hcopied := IpcMessage.copied_eq (hsize.trans hmax)
    rw [hcopied] at hdel
    refine ⟨_, htr.next hp, ?_, hdel, ?_, ?_⟩
    · rw [SysRet.value.inj hval] at hret ⊢
      rw [Nat.min_eq_left (hsize.trans hmax)] at hret ⊢
      have hlt : ((s.inKernel L t).procs s.kernel.cur).inbox.size < 2 ^ 31 := lt_of_le_of_lt hsize (by decide)
      split at hret
      · have := neg64_ge (n := 1) (by decide)
        omega
      · rename_i h1
        rw [if_neg h1, sext32_of_lt hlt]
        simp
    · rw [hrec, Function.update_self]
      rfl
    · rw [hrec, Function.update_self, Mailbox.take, if_pos ⟨hmax, hret⟩, hcopied]

namespace Machine

/-- After boot the shell has sent itself a message. -/
structure Sent (L : Layout) (bytes : List UInt8) (s₀ : Machine) (t : Trap) (s : Machine) (F : List Nat) :
    Prop where
  start : s₀.Start L tinyFs
  step : s₀.Step L tinyFs t s
  free : Free L s F 1
  inbox : ∃ msg : IpcMessage, (s.kernel.procs 1).inbox = msg.fill bytes 2

/-- The shell can send itself any message. -/
theorem exists_accepted (L : Layout) (bytes : List UInt8) (hb : bytes.length ≤ maxMsgSize) :
    ∃ s₀ t s F k, Sent L bytes s₀ t s F ∧
      (s₀.inKernel L t).sysIpcSend 2 dataVa bytes.length = .ok (.value 0, k) ∧
        (s.kernel.procs 1).inbox = (k.procs 1).inbox := by
  obtain ⟨s₀, F, hstart, -, hfree, hboot, -⟩ := exists_shell L []
  obtain ⟨t, ht, -⟩ := hfree.call 402 2 dataVa bytes.length bytes []
  have hcur : s₀.kernel.cur = 1 := hfree.running.cur
  have hload : (s₀.inKernel L t).loadBytes dataVa bytes.length = .ok bytes := by
    have hl := ht.code.loadBytes (x := 64) (n := bytes.length) ht.running (by unfold maxMsgSize at hb; omega)
    rw [show dataVa = userBase + 64 from rfl, hl]
    refine congrArg Except.ok (List.ext_getElem (by simp) fun j _ hj => ?_)
    simp [program, show ¬64 + j < 4 by omega, show ¬64 + j < 64 by omega, hj]
  have hcall : callOf t.frame = some (.ipcSend 2 dataVa bytes.length) := by
    have hlen : (BitVec.ofNat 64 bytes.length).toNat = bytes.length :=
      Nat.mod_eq_of_lt (lt_of_le_of_lt hb (by decide))
    rw [ht.frame]
    show some (Call.ipcSend 2 dataVa (BitVec.ofNat 64 bytes.length).toNat) = _
    rw [hlen]
  have hempty : ((s₀.inKernel L t).procs 1).inbox.pending = false := by
    have := congrArg (fun t : Table => (t.slots 1).inbox.pending) hstart.table
    exact this
  have hpid : ((s₀.inKernel L t).procs 1).pid = 2 := hboot.shellPid
  obtain ⟨k, hk⟩ : ∃ k, k = (s₀.inKernel L t).setInbox 1 (((s₀.inKernel L t).procs 1).inbox.fill bytes 2) := ⟨_, rfl⟩
  have hsend : (s₀.inKernel L t).sysIpcSend 2 dataVa bytes.length = .ok (.value 0, k) := by
    rw [Kernel.sysIpcSend_ok (d := 1) (by decide) (by decide) hempty hb hload, ht.running.cur, hpid, hk]
  have hsys : (s₀.inKernel L t).handleSyscall L tinyFs s₀.input t.now (.ipcSend 2 dataVa bytes.length) =
      .ok (.value 0, k, s₀.input) := by
    simp only [Kernel.handleSyscall, hsend, ok_bind]
  have htrap := trap_value ht.cause hcall hsys
  rw [hcur] at htrap
  have hproc : k.procs 1 = { s₀.kernel.procs 1 with inbox := ((s₀.inKernel L t).procs 1).inbox.fill bytes 2 } := by
    rw [hk]
    exact Kernel.setProc_procs_self
  have hrun : Kernel.Running L k F 1 := by
    rw [hk]
    exact ht.running.setInbox 1 _
  have hcode : HasCode k 1 (program bytes) :=
    ht.code.relabel (by rw [hk]; rfl) (by rw [hproc]; rfl)
  exact ⟨s₀, t, _, F, k, ⟨hstart, ⟨ht.runs, htrap⟩, ht.goOn hrun hcode, _, congrArg Proc.inbox hproc⟩, hsend, rfl⟩

theorem exists_sent (L : Layout) (bytes : List UInt8) (hb : bytes.length ≤ maxMsgSize) :
    ∃ s₀ t s F, Sent L bytes s₀ t s F := by
  obtain ⟨s₀, t, s, F, -, h, -⟩ := exists_accepted L bytes hb
  exact ⟨s₀, t, s, F, h⟩

end Machine

/-- A `sys_ipc_recv` that returned. -/
structure RecvCall where
  before : Kernel
  result : Nat
  after : Kernel

namespace RecvCall

def Made (L : Layout) (buf maxSize senderPid : Nat) (c : RecvCall) : Prop :=
  c.before.sysIpcRecv L buf maxSize senderPid = .ok (.value c.result, c.after)

/-- `ret < 0`, where `ret` is an `int`. -/
def Retried (c : RecvCall) : Prop := (BitVec.ofNat 32 c.result).toInt < 0

/-- The inbox of the caller before the call and after it. -/
def inbox (c : RecvCall) : IpcMessage := (c.before.procs c.before.cur).inbox

def inboxAfter (c : RecvCall) : IpcMessage := (c.after.procs c.before.cur).inbox

/-- The call delivers, or it leaves the inbox alone. -/
structure Sound (maxSize : Nat) (c : RecvCall) : Prop where
  negative : 2 ^ 63 ≤ c.result → c.inboxAfter = c.inbox
  cleared : c.inbox.pending = true → c.inboxAfter.pending = false →
    c.result = (c.inbox.copied maxSize).length ∧ c.result < 2 ^ 63
  /-- the loop does not call again when a message is gone -/
  retried : c.Retried → c.inboxAfter = c.inbox

/-- The call finds a message, of which it copies one byte. -/
def OneByte (maxSize : Nat) (c : RecvCall) : Prop :=
  c.inbox.pending = true ∧ min c.inbox.size maxSize = 1

end RecvCall

/-- The calls of the loop in `ipc_recv` so far: it goes on while they return a negative value. Between two
calls other processes may run. -/
inductive IpcRecv (L : Layout) (buf maxSize senderPid : Nat) : List RecvCall → Prop
  | start : IpcRecv L buf maxSize senderPid []
  | call {calls : List RecvCall} {c : RecvCall} (h : IpcRecv L buf maxSize senderPid calls)
      (hr : ∀ c' ∈ calls, c'.Retried) (hc : c.Made L buf maxSize senderPid) :
      IpcRecv L buf maxSize senderPid (calls ++ [c])

theorem IpcRecv.made {calls : List RecvCall} (h : IpcRecv L buf maxSize senderPid calls) :
    ∀ c ∈ calls, c.Made L buf maxSize senderPid := by
  induction h with
  | start => simp
  | call _ _ hc ih =>
      intro c hmem
      rcases List.mem_append.mp hmem with hmem | hmem
      · exact ih c hmem
      · rw [List.mem_singleton.mp hmem]
        exact hc

theorem toInt_of_le {n : Nat} (h : n ≤ maxMsgSize) : (BitVec.ofNat 32 n).toInt = n := by
  have hn : (BitVec.ofNat 32 n).toNat = n := Nat.mod_eq_of_lt (lt_of_le_of_lt h (by decide))
  have := BitVec.toInt_eq_toNat_cond (BitVec.ofNat 32 n)
  rwa [hn, if_pos (by unfold maxMsgSize at h; omega)] at this

/-- A call that delivers a message returns a size that no loop takes for an error. -/
theorem not_retried {n : Nat} (h : n ≤ maxMsgSize) : ¬(BitVec.ofNat 32 n).toInt < 0 := by
  rw [toInt_of_le h]
  omega

theorem RecvCall.Made.sound_iff {c : RecvCall} (hc : c.Made L buf maxSize senderPid)
    (hsize : c.inbox.size ≤ maxMsgSize) : c.Sound maxSize ↔ ¬c.OneByte maxSize := by
  have hneg := neg64_ge (n := 1) (by decide)
  rcases Kernel.sysIpcRecv_table hc with ⟨hsame, -, hp⟩ | ⟨hp, ht, hval⟩
  · have hbox : c.inboxAfter = c.inbox := congrArg (fun k : Kernel => (k.procs c.before.cur).inbox) hsame
    refine iff_of_true ⟨fun _ => hbox, fun h => ?_, fun _ => hbox⟩ fun h => ?_
    · rw [show c.inbox.pending = false from hp] at h
      cases h
    · have h1 := h.1
      rw [show c.inbox.pending = false from hp] at h1
      cases h1
  · have hbox : c.inboxAfter = { c.inbox with pending := false } := by
      have := congrArg (fun t : Table => (t.slots c.before.cur).inbox) ht
      exact this.trans (congrArg Slot.inbox Table.slots_set_self)
    have hne : c.inboxAfter ≠ c.inbox := fun he => by
      have := congrArg IpcMessage.pending (hbox.symm.trans he)
      rw [show c.inbox.pending = true from hp] at this
      cases this
    have hret := SysRet.value.inj hval
    by_cases h1 : min c.inbox.size maxSize = 1
    · rw [show (c.before.procs c.before.cur).inbox = c.inbox from rfl, if_pos h1] at hret
      exact iff_of_false (fun hs => hne (hs.negative (by omega))) (not_not.mpr ⟨hp, h1⟩)
    · rw [show (c.before.procs c.before.cur).inbox = c.inbox from rfl, if_neg h1] at hret
      have hle : min c.inbox.size maxSize ≤ maxMsgSize := (Nat.min_le_left _ _).trans hsize
      rw [sext32_of_lt (lt_of_le_of_lt hle (by decide))] at hret
      have hlt : c.result < 2 ^ 63 := by
        rw [hret]
        exact lt_of_le_of_lt hle (by decide)
      refine iff_of_true ⟨fun h => by omega, fun _ _ => ⟨?_, hlt⟩, fun h => ?_⟩ fun h => h1 h.2
      · rw [hret]
        simp [IpcMessage.copied]
      · refine absurd h ?_
        unfold RecvCall.Retried
        rw [hret]
        exact not_retried hle

/-- The calls of the loop deliver or leave the inbox alone, all of them, if none finds a message of which it
copies one byte. -/
theorem ipcRecv_sound_iff {calls : List RecvCall} (h : IpcRecv L buf maxSize senderPid calls)
    (hsize : ∀ c ∈ calls, c.inbox.size ≤ maxMsgSize) :
    (∀ c ∈ calls, c.Sound maxSize) ↔ ∀ c ∈ calls, ¬c.OneByte maxSize :=
  forall₂_congr fun c hc => (h.made c hc).sound_iff (hsize c hc)

namespace Machine

/-- The shell receives its message. -/
theorem Sent.recv {F : List Nat} (h : Sent L bytes s₀ t s F) (hb : bytes.length ≤ maxMsgSize) :
    ∃ (t' : Trap) (c : RecvCall), s.Runs L t' ∧ callOf t'.frame = some (.ipcRecv dataVa 256 0) ∧
      c.before = s.inKernel L t' ∧ c.Made L dataVa 256 0 ∧ c.inbox.pending = true ∧ c.inbox.size = bytes.length := by
  obtain ⟨t', ht, -⟩ := h.free.call 403 dataVa 256 0 [] []
  obtain ⟨msg, hmsg⟩ := h.inbox
  have hbox : ((s.inKernel L t').procs (s.inKernel L t').cur).inbox = msg.fill bytes 2 := by
    rw [ht.running.cur]
    exact hmsg
  have hcopied : ((msg.fill bytes 2).copied 256).length = bytes.length := by
    rw [IpcMessage.copied, List.length_map, List.length_range]
    exact Nat.min_eq_left hb
  obtain ⟨k, hk, -⟩ := ht.code.storeBytes (x := 64) (l := (msg.fill bytes 2).copied 256) ht.running
    (by rw [hcopied]; unfold maxMsgSize at hb; omega)
  have hrecv : ∃ ret k', (s.inKernel L t').sysIpcRecv L dataVa 256 0 = .ok (.value ret, k') := by
    unfold Kernel.sysIpcRecv
    simp only [hbox, show (msg.fill bytes 2).pending = true from rfl, Bool.not_true, Bool.false_eq_true, if_false,
      show dataVa = userBase + 64 from rfl, hk, ok_bind, Kernel.storeSender, if_true]
    exact ⟨_, _, rfl⟩
  obtain ⟨ret, k', hr⟩ := hrecv
  refine ⟨t', ⟨s.inKernel L t', ret, k'⟩, ht.runs, by rw [ht.frame]; rfl, rfl, hr, ?_, ?_⟩
  · exact congrArg IpcMessage.pending hbox
  · exact congrArg IpcMessage.size hbox

end Machine

/-- The shell receives the two bytes that it has sent itself. -/
theorem ipcRecv_sound_hi : ∃ c : RecvCall, c.inbox.pending = true ∧
    ((∀ c' ∈ [c], c'.Sound 256) ↔ ∀ c' ∈ [c], ¬c'.OneByte 256) := by
  obtain ⟨s₀, t, s, F, h⟩ := Machine.exists_sent Layout.kernelMap [104, 105] (by decide)
  obtain ⟨t', c, -, -, -, hc, hp, hsize⟩ := h.recv (by decide)
  have hloop : IpcRecv Layout.kernelMap Machine.dataVa 256 0 [c] := .call .start (by simp) hc
  refine ⟨c, hp, ipcRecv_sound_iff hloop fun c' hc' => ?_⟩
  rw [List.mem_singleton.mp hc', hsize]
  decide

/-- A message of one byte is taken from the inbox, and the result is the one of an empty inbox. -/
theorem ipcRecv_one_byte : ¬∀ (L : Layout) (buf maxSize senderPid : Nat) (c : RecvCall),
    c.Made L buf maxSize senderPid → c.inbox.size ≤ maxMsgSize → c.Sound maxSize := by
  intro hall
  obtain ⟨s₀, t, s, F, h⟩ := Machine.exists_sent Layout.kernelMap [120] (by decide)
  obtain ⟨t', c, -, -, -, hc, hp, hsize⟩ := h.recv (by decide)
  have hle : c.inbox.size ≤ maxMsgSize := by
    rw [hsize]
    decide
  refine (hc.sound_iff hle).mp (hall _ _ _ _ c hc hle) ⟨hp, ?_⟩
  rw [hsize]
  rfl

/-! ## Pids and inboxes -/

namespace Kernel

/-- `i` is the process with this pid, and it can take a message. -/
def Addressee (k : Kernel) (destPid : Int) (i : Fin procsMax) : Prop :=
  (k.procs i).pid = destPid ∧ (k.procs i).state ≠ .unused ∧ (k.procs i).state ≠ .zombie ∧
    (k.procs i).inbox.pending = false

/-- A message goes to the process with the pid, and where there is none, nothing happens. -/
structure SendSound (k : Kernel) (destPid : Int) (buf size : Nat) : Prop where
  accepted : ∀ i, k.Addressee destPid i → ∃ bytes k', k.loadBytes buf size = .ok bytes ∧
    k.sysIpcSend destPid buf size = .ok (.value 0, k') ∧
    (k'.procs i).inbox = (k.procs i).inbox.fill bytes (k.procs k.cur).pid ∧
    ∀ j, j ≠ i → (k'.procs j).inbox = (k.procs j).inbox
  refused : (∀ i, ¬k.Addressee destPid i) → ∃ a0 k', k.sysIpcSend destPid buf size = .ok (.value a0, k') ∧
    2 ^ 63 ≤ a0 ∧ ∀ j, (k'.procs j).inbox = (k.procs j).inbox

/-- The slot of the process with the pid is not one of those with which `sys_ipc_send` goes wrong. -/
def Reaches (k : Kernel) (destPid : Int) (buf size : Nat) (i : Fin procsMax) : Prop :=
  -- pid 1 is nobody's, and its slot is that of idle
  if i = 0 then (k.procs i).inbox.pending = true
  -- the last slot is out of reach
  else if destPid = procsMax then ¬k.Addressee destPid i
  else (k.procs i).inbox.pending = true ∨
    (k.procs i).state ≠ .unused ∧ (k.procs i).state ≠ .zombie ∧ ∃ bytes, k.loadBytes buf size = .ok bytes

variable {a0 : Nat}

theorem sysIpcSend_range (h : destPid < 0 ∨ procsMax ≤ destPid) :
    k.sysIpcSend destPid buf size = .ok (.value (neg64 1), k) := if_pos h

/-- There is no process for pid 0 in `get_proc_by_pid`. -/
theorem sysIpcSend_zero (k : Kernel) (buf size : Nat) : ∃ halt, k.sysIpcSend 0 buf size = .error halt := ⟨_, rfl⟩

theorem sysIpcSend_full (hd : destPid = (d : Nat) + 1) (hlt : destPid < procsMax) (hsize : size ≤ maxMsgSize)
    (hp : (k.procs d).inbox.pending = true) :
    k.sysIpcSend destPid buf size = .ok (.value (neg64 2), k) := by
  unfold sysIpcSend
  rw [if_neg (by omega), getProcByPid_eq_some.mpr hd]
  simp only [hp, if_neg (Nat.not_lt.mpr hsize), if_true]

theorem sysIpcSend_fault {halt : Halt} (hd : destPid = (d : Nat) + 1) (hlt : destPid < procsMax)
    (hp : (k.procs d).inbox.pending = false) (hsize : size ≤ maxMsgSize)
    (hb : k.loadBytes buf size = .error halt) : k.sysIpcSend destPid buf size = .error halt := by
  unfold sysIpcSend
  rw [if_neg (by omega), getProcByPid_eq_some.mpr hd]
  simp only [hp, if_neg (Nat.not_lt.mpr hsize), Bool.false_eq_true, if_false, hb]
  rfl

theorem SendSound.of_refused (hno : ∀ i, ¬k.Addressee destPid i)
    (h : k.sysIpcSend destPid buf size = .ok (.value a0, k)) (ha : 2 ^ 63 ≤ a0) : k.SendSound destPid buf size :=
  ⟨fun i hi => absurd hi (hno i), fun _ => ⟨a0, k, h, ha, fun _ => rfl⟩⟩

theorem not_sendSound_of_error {halt : Halt} (h : k.sysIpcSend destPid buf size = .error halt) :
    ¬k.SendSound destPid buf size := by
  intro hs
  by_cases hi : ∃ i, k.Addressee destPid i
  · obtain ⟨i, hi⟩ := hi
    obtain ⟨_, _, -, hok, -⟩ := hs.accepted i hi
    rw [h] at hok
    cases hok
  · obtain ⟨_, _, hok, -⟩ := hs.refused (not_exists.mp hi)
    rw [h] at hok
    cases hok

/-- A pid is that of the slot before it. -/
theorem Addressee.slot (hk : k.table.Ok) (h : k.Addressee destPid i) :
    destPid = if i = 0 then 0 else (i : Int) + 1 := by
  have hpid := hk.pid i
  rw [← h.1]
  show ((k.table.slots i).pid : Int) = _
  rw [hpid]
  by_cases hi : i = 0
  · simp [hi]
  · rw [if_neg, if_neg hi]
    · push_cast
      rfl
    · rintro (hu | h0)
      · exact h.2.1 hu
      · exact hi h0

theorem SendSound.not_of_ok (hno : ∀ i, ¬k.Addressee destPid i)
    (h : k.sysIpcSend destPid buf size = .ok (.value 0, k')) : ¬k.SendSound destPid buf size := by
  intro hs
  obtain ⟨a0, _, hok, ha, -⟩ := hs.refused hno
  rw [h] at hok
  have := SysRet.value.inj (Prod.mk.inj (Except.ok.inj hok)).1
  omega

/-- The pids of a slot that `sys_ipc_send` reaches. -/
theorem sendSound_reached (hd : destPid = (d : Nat) + 1) (hlt : destPid < procsMax) (hsize : size ≤ maxMsgSize)
    (honly : ∀ i, k.Addressee destPid i → i = d) :
    k.SendSound destPid buf size ↔ (k.procs d).inbox.pending = true ∨
      k.Addressee destPid d ∧ ∃ bytes, k.loadBytes buf size = .ok bytes := by
  cases hp : (k.procs d).inbox.pending with
  | true =>
      have hno : ∀ i, ¬k.Addressee destPid i := fun i hi => by
        obtain rfl := honly i hi
        rw [hi.2.2.2] at hp
        cases hp
      exact iff_of_true (.of_refused hno (sysIpcSend_full hd hlt hsize hp) (neg64_ge (by decide))) (.inl rfl)
  | false =>
      simp only [Bool.false_eq_true, false_or]
      cases hb : k.loadBytes buf size with
      | error halt =>
          refine iff_of_false (not_sendSound_of_error (sysIpcSend_fault hd hlt hp hsize hb)) ?_
          rintro ⟨-, _, hok⟩
          cases hok
      | ok bytes =>
          have hok := sysIpcSend_ok hd hlt hp hsize hb
          by_cases ha : k.Addressee destPid d
          · refine iff_of_true ⟨fun i hi => ?_, fun hno => absurd ha (hno d)⟩ ⟨ha, bytes, rfl⟩
            obtain rfl := honly i hi
            refine ⟨bytes, _, hb, hok, congrArg Proc.inbox setProc_procs_self, fun j hj => ?_⟩
            exact congrArg Proc.inbox (setProc_procs_of_ne hj)
          · refine iff_of_false (SendSound.not_of_ok (fun i hi => ha ?_) hok) fun h => ha h.1
            obtain rfl := honly i hi
            exact hi

/-- `sys_ipc_send` does what the pids promise except for pid 0, for pid 1, for the last slot, and for a slot
whose process does not run any more. -/
theorem sendSound_iff (hk : k.table.Ok) (hsize : size ≤ maxMsgSize) :
    k.SendSound destPid buf size ↔
      destPid < 0 ∨ procsMax < destPid ∨ ∃ i : Fin procsMax, destPid = (i : Nat) + 1 ∧ k.Reaches destPid buf size i := by
  by_cases hout : destPid < 0 ∨ procsMax < destPid
  · have hno : ∀ i, ¬k.Addressee destPid i := fun i hi => by
      have hs := hi.slot hk
      have := i.isLt
      split at hs <;> omega
    refine iff_of_true (.of_refused hno (sysIpcSend_range (by omega)) (neg64_ge (by decide))) ?_
    rcases hout with h | h
    · exact .inl h
    · exact .inr (.inl h)
  · have hrest : ∀ P, destPid < 0 ∨ procsMax < destPid ∨ P ↔ P := fun P => by
      rw [← or_assoc, or_iff_right hout]
    rw [hrest]
    by_cases h0 : destPid = 0
    · subst h0
      obtain ⟨halt, hz⟩ := k.sysIpcSend_zero buf size
      refine iff_of_false (not_sendSound_of_error hz) ?_
      rintro ⟨i, hi, -⟩
      omega
    · obtain ⟨d, hd⟩ : ∃ d : Fin procsMax, destPid = (d : Nat) + 1 :=
        ⟨⟨(destPid - 1).toNat, by omega⟩, by simp only; omega⟩
      have hex : (∃ i : Fin procsMax, destPid = (i : Nat) + 1 ∧ k.Reaches destPid buf size i) ↔
          k.Reaches destPid buf size d := by
        refine ⟨fun ⟨i, hi, hr⟩ => ?_, fun hr => ⟨d, hd, hr⟩⟩
        obtain rfl : i = d := Fin.ext (by omega)
        exact hr
      have honly : ∀ i, k.Addressee destPid i → i = d ∧ i ≠ 0 := fun i hi => by
        have hs := hi.slot hk
        split at hs
        · omega
        · rename_i hne
          exact ⟨Fin.ext (by omega), hne⟩
      rw [hex]
      unfold Reaches
      split
      · rename_i hd0
        rw [sendSound_reached hd (by rw [hd, hd0]; decide) hsize fun i hi => (honly i hi).1]
        refine or_iff_left fun ha => ?_
        exact (honly d ha.1).2 hd0
      · split
        · rename_i hd0 hlast
          by_cases ha : k.Addressee destPid d
          · refine iff_of_false (fun hs => ?_) (not_not.mpr ha)
            obtain ⟨_, _, -, hok, -⟩ := hs.accepted d ha
            rw [sysIpcSend_range (.inr hlast.ge)] at hok
            cases hok
          · refine iff_of_true (.of_refused (fun i hi => ha ?_) (sysIpcSend_range (.inr hlast.ge))
              (neg64_ge (by decide))) ha
            obtain rfl := (honly i hi).1
            exact hi
        · rename_i hd0 hlast
          rw [sendSound_reached hd (by have := d.isLt; omega) hsize fun i hi => (honly i hi).1]
          cases hp : (k.procs d).inbox.pending with
          | true => simp
          | false =>
              have hpid : (k.procs d).state ≠ .unused → ((k.procs d).pid : Int) = destPid := fun hu => by
                have := hk.pid d
                rw [if_neg (by rintro (h | h); exacts [hu h, hd0 h])] at this
                rw [hd, show (k.procs d).pid = (d : Nat) + 1 from this]
                push_cast
                rfl
              simp only [Bool.false_eq_true, false_or, Addressee, hp, and_true]
              tauto

end Kernel

end RiscvOs
