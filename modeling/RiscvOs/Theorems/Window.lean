import RiscvOs.Window
import RiscvOs.Theorems.Messages

/-!
# The buffer of the window server

A message of the greatest size puts its terminator behind the buffer, and a text behind "draw" is read even when
there is none. Between the copy of a message and its terminator `ipc_recv` logs it as a string.
-/

namespace RiscvOs

open Outcome

namespace Window

variable {b : Nat → UInt8} {p q i n rounds : Nat} {t msg : List UInt8} {r : Reply}

/-! ## Reading a string -/

theorem mem_readStr : i ∈ readStr b n p ↔ p ≤ i ∧ i < p + n ∧ ∀ j, p ≤ j → j < i → b j ≠ 0 := by
  induction n generalizing p with
  | zero => exact iff_of_false List.not_mem_nil (by omega)
  | succ n ih =>
      rw [readStr, List.mem_cons]
      by_cases h0 : b p = 0
      · rw [if_pos h0, or_iff_left List.not_mem_nil]
        constructor
        · rintro rfl
          exact ⟨Nat.le_refl _, by omega, fun j h1 h2 => absurd h1 (by omega)⟩
        · rintro ⟨h1, -, h3⟩
          by_contra hne
          exact h3 p (Nat.le_refl _) (by omega) h0
      · rw [if_neg h0, ih]
        constructor
        · rintro (rfl | ⟨h1, h2, h3⟩)
          · exact ⟨Nat.le_refl _, by omega, fun j h1 h2 => absurd h1 (by omega)⟩
          · refine ⟨by omega, by omega, fun j hj hji => ?_⟩
            rcases Nat.eq_or_lt_of_le hj with rfl | hlt
            · exact h0
            · exact h3 j hlt hji
        · rintro ⟨h1, h2, h3⟩
          rcases Nat.eq_or_lt_of_le h1 with rfl | hlt
          · exact .inl rfl
          · exact .inr ⟨hlt, by omega, fun j hj hji => h3 j (by omega) hji⟩

/-- A string is not read behind a 0. -/
theorem le_of_mem_readStr (h : i ∈ readStr b n p) (hq : b q = 0) (hpq : p ≤ q) : i ≤ q := by
  by_contra hlt
  exact (mem_readStr.mp h).2.2 q hpq (by omega) hq

theorem le_of_mem_strncmp (h : i ∈ (strncmp b p t).2) (hq : b q = 0) (hpq : p ≤ q) : i ≤ q := by
  induction t generalizing p with
  | nil => cases h
  | cons c t ih =>
      rw [strncmp] at h
      split at h
      · rw [List.mem_singleton.mp h]
        exact hpq
      · split at h
        · rw [List.mem_singleton.mp h]
          exact hpq
        · rename_i h0
          rcases List.mem_cons.mp h with rfl | h
          · exact hpq
          · refine ih h (Nat.lt_of_le_of_ne hpq ?_)
            rintro rfl
            exact h0 hq

theorem strncmp_iff (ht : 0 ∉ t) : (strncmp b p t).1 = true ↔ ∀ i (h : i < t.length), b (p + i) = t[i] := by
  induction t generalizing p with
  | nil => simp [strncmp]
  | cons c t ih =>
      have hc : c ≠ 0 := fun he => ht (by simp [he])
      rw [strncmp]
      by_cases hp : b p = c
      · rw [if_neg (not_not.mpr hp), if_neg (hp ▸ hc)]
        show (strncmp b (p + 1) t).1 = true ↔ _
        rw [ih fun h => ht (List.mem_cons_of_mem _ h)]
        constructor
        · intro h i hi
          cases i with
          | zero => exact hp
          | succ i =>
              have := h i (Nat.lt_of_succ_lt_succ hi)
              rwa [Nat.add_right_comm, Nat.add_assoc] at this
        · intro h i hi
          have := h (i + 1) (Nat.succ_lt_succ hi)
          rwa [← Nat.add_assoc, Nat.add_right_comm] at this
      · rw [if_pos hp]
        exact iff_of_false Bool.false_ne_true fun h => hp (h 0 (by simp))

/-- With the terminator behind the message, the comparison is one with the beginning of the message. -/
theorem strncmp_update_iff (hb : ∀ i (h : i < msg.length), b i = msg[i]) (ht : 0 ∉ t) :
    (strncmp (Function.update b msg.length 0) 0 t).1 = true ↔ t <+: msg := by
  rw [strncmp_iff ht, List.prefix_iff_getElem]
  constructor
  · intro h
    have hlen : t.length ≤ msg.length := by
      by_contra hlt
      have hend := h msg.length (by omega)
      rw [Nat.zero_add, Function.update_self] at hend
      exact ht (hend ▸ List.getElem_mem _)
    refine ⟨hlen, fun i hi => ?_⟩
    rw [← h i hi, Nat.zero_add, Function.update_of_ne (by omega), hb i (by omega)]
  · rintro ⟨hlen, h⟩ i hi
    rw [Nat.zero_add, Function.update_of_ne (by omega), hb i (by omega), h i hi]

/-! ## One message -/

theorem draw_facts : 0 ∉ ascii "draw" ∧ (ascii "draw").length = 4 ∧ logRoom "[window_server] Drawing: " = 231 ∧
    logRoom "[ipc_recv] received  msg : " = 229 := by decide

theorem gotMessage_inRecv : ∀ a ∈ (gotMessage rounds n b).1, a.inRecv = false := by
  unfold gotMessage
  exact List.forall_mem_map.mpr fun _ _ => rfl

theorem received_inRecv : ∀ a ∈ received r b, a.inRecv = true := by
  unfold received
  exact List.forall_mem_map.mpr fun _ _ => rfl

/-- What `main` does with a message stays inside. -/
theorem gotMessage_inside_iff (hb : ∀ i (h : i < msg.length), b i = msg[i]) :
    (∀ a ∈ (gotMessage rounds msg.length b).1, a.Inside) ↔ msg.length < bufSize ∧ msg ≠ ascii "draw" := by
  obtain ⟨hdraw0, hdraw, hroom, -⟩ := draw_facts
  have hiff := strncmp_update_iff hb hdraw0
  have hend : Function.update b msg.length 0 msg.length = 0 := Function.update_self ..
  unfold gotMessage
  simp only [List.forall_mem_map]
  generalize Function.update b msg.length 0 = b' at hiff hend ⊢
  constructor
  · intro h
    refine ⟨(h msg.length (List.mem_cons_self ..)).1, ?_⟩
    rintro rfl
    have hmem : 5 ∈ readStr b' (logRoom "[window_server] Drawing: ") 5 :=
      mem_readStr.mpr ⟨Nat.le_refl _, by omega, fun j h1 h2 => absurd h1 (by omega)⟩
    have hin := (h 5 (List.mem_cons_of_mem _ (List.mem_append_right _ ?_))).2
    · simp only [hdraw] at hin
      omega
    · rw [if_pos (hiff.mpr (List.prefix_refl _))]
      exact List.mem_append_left _ hmem
  · rintro ⟨hlt, hne⟩ i hi
    have hle : i ≤ msg.length := by
      simp only [List.mem_cons, List.mem_append] at hi
      rcases hi with rfl | ((hi | hi) | hi) | hi
      · exact Nat.le_refl _
      · exact le_of_mem_readStr hi hend (Nat.zero_le _)
      · exact le_of_mem_readStr hi hend (Nat.zero_le _)
      · exact le_of_mem_strncmp hi hend (Nat.zero_le _)
      · split at hi
        · rename_i heq
          obtain ⟨text, rfl⟩ := hiff.mp heq
          have hpos : 0 < text.length := List.length_pos_of_ne_nil fun h => hne (by rw [h, List.append_nil])
          rw [List.length_append, hdraw] at hend ⊢
          rcases List.mem_append.mp hi with hi | hi
          · exact le_of_mem_readStr hi hend (by omega)
          · exact le_of_mem_readStr hi hend (by omega)
        · cases hi
    exact ⟨lt_of_le_of_lt hle hlt, Nat.lt_succ_of_le hle⟩

/-- The copy stays inside, and the log line of `ipc_recv` does when the text ends before the message does. -/
theorem received_inside_iff (hb : ∀ i (h : i < r.bytes.length), b i = r.bytes[i])
    (hsize : r.bytes.length ≤ bufSize) :
    (∀ a ∈ received r b, a.Inside) ↔ r.ret < 0 ∨ 228 < r.bytes.length ∨ 0 ∈ r.bytes := by
  unfold received
  simp only [List.forall_mem_map, draw_facts.2.2.2]
  constructor
  · intro h
    by_contra hno
    simp only [not_or, Nat.not_lt] at hno
    obtain ⟨hret, hlen, h0⟩ := hno
    have hmem : r.bytes.length ∈ readStr b 229 0 := by
      refine mem_readStr.mpr ⟨Nat.zero_le _, by omega, fun j _ hj he => h0 ?_⟩
      rw [← he, hb j hj]
      exact List.getElem_mem _
    refine Nat.lt_irrefl r.bytes.length (h _ (List.mem_append_right _ ?_)).2
    rwa [if_neg hret]
  · intro h i hi
    have hlt : i < r.bytes.length := by
      rcases List.mem_append.mp hi with hi | hi
      · exact List.mem_range.mp hi
      · split at hi
        · cases hi
        · rename_i hret
          rcases h.resolve_left hret with h | h
          · have := (mem_readStr.mp hi).2.1
            omega
          · obtain ⟨j, hj, he⟩ := List.getElem_of_mem h
            exact lt_of_le_of_lt (le_of_mem_readStr hi ((hb j hj).trans he) (Nat.zero_le _)) hj
    exact ⟨hlt.trans_le hsize, hlt⟩

/-! ## A run of the server -/

/-- The first reply and the others. -/
theorem forall_mem_main_cons (rounds : Nat) (r : Reply) (replies : List Reply) (b : Nat → UInt8) :
    ∃ b', ∀ P : Access → Prop, (∀ a ∈ main rounds (r :: replies) b, P a) ↔
      (∀ a ∈ received r (r.copyTo b), P a) ∧
        (0 < r.ret → ∀ a ∈ (gotMessage rounds r.ret.toNat (r.copyTo b)).1, P a) ∧
          ∀ a ∈ main rounds replies b', P a := by
  by_cases h : 0 < r.ret
  · refine ⟨(gotMessage rounds r.ret.toNat (r.copyTo b)).2, fun P => ?_⟩
    simp only [main, h, if_true, List.forall_mem_append, and_assoc, true_imp_iff]
  · refine ⟨r.copyTo b, fun P => ?_⟩
    simp only [main, h, if_false, List.forall_mem_append, false_imp_iff, true_and]

theorem copyTo_eq (r : Reply) (b : Nat → UInt8) (h : i < r.bytes.length) : r.copyTo b i = r.bytes[i] :=
  List.getD_eq_getElem _ _ h

/-- The reply brings this message, or there is none. -/
structure Reply.Brings (r : Reply) (msg : Option (List UInt8)) : Prop where
  bytes : r.bytes = msg.getD []
  room : r.bytes.length ≤ bufSize
  ret : r.ret = if msg = none ∨ r.bytes.length = 1 then -1 else (r.bytes.length : Int)

/-- The server draws or refuses the message, and touches nothing but the message and its terminator. -/
def Fits (msg : List UInt8) : Prop := msg.length ≠ bufSize ∧ msg ≠ ascii "draw"

/-- The log line of `ipc_recv` reads nothing but the message. -/
def Logged (msg : List UInt8) : Prop := msg.length = 1 ∨ 228 < msg.length ∨ 0 ∈ msg

namespace Reply.Brings

theorem ret_none (h : r.Brings none) : r.ret = -1 := by rw [h.ret, if_pos (.inl rfl)]

theorem ret_one (h : r.Brings (some msg)) (h1 : msg.length = 1) : r.ret = -1 := by
  rw [h.ret, if_pos (.inr (by rw [h.bytes]; exact h1))]

theorem ret_some (h : r.Brings (some msg)) (h1 : msg.length ≠ 1) : r.ret = msg.length := by
  have hbytes : r.bytes = msg := h.bytes
  rw [h.ret, hbytes, if_neg (by simpa using h1)]

theorem gotMessage_iff {o : Option (List UInt8)} (h : r.Brings o) (rounds : Nat) (b : Nat → UInt8) :
    (0 < r.ret → ∀ a ∈ (gotMessage rounds r.ret.toNat (r.copyTo b)).1, a.Inside) ↔ ∀ msg, o = some msg → Fits msg := by
  cases o with
  | none => exact iff_of_true (fun hpos => absurd hpos (by rw [h.ret_none]; decide)) fun _ hm => by cases hm
  | some msg =>
      have hroom := h.room
      have hbytes : r.bytes = msg := h.bytes
      subst hbytes
      simp only [Option.some.injEq, forall_eq']
      by_cases hshort : r.bytes.length ≤ 1
      · refine iff_of_true (fun hpos => absurd hpos ?_) ⟨by unfold bufSize; omega, fun he => ?_⟩
        · by_cases h1 : r.bytes.length = 1
          · rw [h.ret_one h1]
            decide
          · rw [h.ret_some h1]
            omega
        · have hlen := draw_facts.2.1
          rw [← he] at hlen
          omega
      · rw [h.ret_some (by omega), Int.toNat_natCast, gotMessage_inside_iff fun _ => copyTo_eq r b]
        exact ⟨fun hh => ⟨(hh (by omega)).1.ne, (hh (by omega)).2⟩, fun hh _ => ⟨lt_of_le_of_ne hroom hh.1, hh.2⟩⟩

theorem received_iff {o : Option (List UInt8)} (h : r.Brings o) (b : Nat → UInt8) :
    (∀ a ∈ received r (r.copyTo b), a.Inside) ↔ ∀ msg, o = some msg → Logged msg := by
  rw [received_inside_iff (fun _ => copyTo_eq r b) h.room]
  cases o with
  | none => exact iff_of_true (.inl (by rw [h.ret_none]; decide)) fun _ hm => by cases hm
  | some msg =>
      have hbytes : r.bytes = msg := h.bytes
      subst hbytes
      simp only [Option.some.injEq, forall_eq']
      refine or_congr_left ?_
      by_cases h1 : r.bytes.length = 1
      · exact iff_of_true (by rw [h.ret_one h1]; decide) h1
      · exact iff_of_false (by rw [h.ret_some h1]; omega) h1

end Reply.Brings

end Window

/-! ## The messages that the kernel accepts -/

variable {L : Layout} {k k' : Kernel} {destPid : Int} {buf size senderPid : Nat} {d : Fin procsMax}

theorem Kernel.sysIpcSend_size (h : k.sysIpcSend destPid buf size = .ok (.value 0, k'))
    (hd : getProcByPid destPid = some d) : (k'.procs d).inbox.size ≤ maxMsgSize := by
  have hneg : ∀ n, n ≤ 2 ^ 63 → SysRet.value (neg64 n) ≠ .value 0 := fun n hn he => by
    have := neg64_ge hn
    rw [SysRet.value.inj he] at this
    omega
  unfold sysIpcSend at h
  rw [hd] at h
  simp only at h
  split at h
  · cases hneg 1 (by decide) (Prod.mk.inj (Except.ok.inj h)).1
  · split at h
    · cases hneg 2 (by decide) (Prod.mk.inj (Except.ok.inj h)).1
    · split at h
      · cases hneg 2 (by decide) (Prod.mk.inj (Except.ok.inj h)).1
      · rename_i hsize _
        obtain ⟨bytes, hb, h⟩ := bind_eq_ok.mp h
        cases h
        rw [setInbox, setProc_procs_self]
        show bytes.length ≤ maxMsgSize
        rw [loadBytes_length hb]
        exact Nat.not_lt.mp hsize

namespace RecvCall

variable {c : RecvCall}

/-- What the call gives to the server. -/
def reply (c : RecvCall) : Window.Reply :=
  ⟨c.result, if c.inbox.pending then c.inbox.copied Window.bufSize else []⟩

/-- If the call finds a message, `sys_ipc_send` has accepted it for the process. -/
def Accepted (c : RecvCall) : Prop :=
  c.inbox.pending = true → ∃ (k k' : Kernel) (destPid : Int) (buf size : Nat),
    k.sysIpcSend destPid buf size = .ok (.value 0, k') ∧ getProcByPid destPid = some c.before.cur ∧
      c.inbox = (k'.procs c.before.cur).inbox

/-- The bytes of the message that the call finds. -/
def message (c : RecvCall) : Option (List UInt8) := c.inbox.content.map Message.bytes

theorem Accepted.size_le (h : c.Accepted) (hp : c.inbox.pending = true) : c.inbox.size ≤ maxMsgSize := by
  obtain ⟨k, k', destPid, buf, size, hsend, hd, hbox⟩ := h hp
  rw [hbox]
  exact Kernel.sysIpcSend_size hsend hd

theorem reply_brings (hc : c.Made L buf Window.bufSize senderPid) (ha : c.Accepted) :
    c.reply.Brings c.message := by
  rcases Kernel.sysIpcRecv_table hc with ⟨-, hval, hp⟩ | ⟨hp, -, hval⟩
  · have hmsg : c.message = none := congrArg _ (IpcMessage.content_of_not_pending hp)
    have hbytes : c.reply.bytes = [] := if_neg (by rw [show c.inbox.pending = false from hp]; decide)
    rw [hmsg]
    refine ⟨hbytes, by rw [hbytes]; exact Nat.zero_le _, ?_⟩
    rw [if_pos (.inl rfl), Window.Reply.ret, show c.reply.a0 = neg64 1 from SysRet.value.inj hval]
    rfl
  · have hp : c.inbox.pending = true := hp
    have hsize := ha.size_le hp
    have hbytes : c.reply.bytes = (List.range c.inbox.size).map c.inbox.data :=
      (if_pos hp).trans (IpcMessage.copied_eq hsize)
    have hlen : c.reply.bytes.length = c.inbox.size := by simp [hbytes]
    have hmsg : c.message = some c.reply.bytes := by
      rw [message, IpcMessage.content_of_pending hp, hbytes]
      rfl
    rw [hmsg]
    refine ⟨rfl, hlen.trans_le hsize, ?_⟩
    have hret : c.reply.a0 = if c.inbox.size = 1 then neg64 1 else sext32 c.inbox.size := by
      have hval : c.result = if min c.inbox.size Window.bufSize = 1 then neg64 1
          else sext32 (min c.inbox.size Window.bufSize) := SysRet.value.inj hval
      rwa [Nat.min_eq_left (show c.inbox.size ≤ Window.bufSize from hsize)] at hval
    rw [Window.Reply.ret, hret, hlen]
    by_cases h1 : c.inbox.size = 1
    · rw [if_pos h1, if_pos (.inr h1)]
      rfl
    · rw [if_neg h1, if_neg (by simp [h1]), sext32_of_lt (lt_of_le_of_lt hsize (by decide))]
      exact toInt_of_le hsize

/-- A run of the server, in which `main` alone is looked at or `ipc_recv` as well. -/
theorem main_inside_iff {calls : List RecvCall} (h : ∀ c ∈ calls, c.reply.Brings c.message) (rounds : Nat)
    (b : Nat → UInt8) :
    ((∀ a ∈ Window.main rounds (calls.map reply) b, a.inRecv = false → a.Inside) ↔
        ∀ c ∈ calls, ∀ msg, c.message = some msg → Window.Fits msg) ∧
      ((∀ a ∈ Window.main rounds (calls.map reply) b, a.Inside) ↔
        ∀ c ∈ calls, ∀ msg, c.message = some msg → Window.Fits msg ∧ Window.Logged msg) := by
  induction calls generalizing b with
  | nil => simp [Window.main]
  | cons c calls ih =>
      obtain ⟨hc, hcalls⟩ := List.forall_mem_cons.mp h
      obtain ⟨b', hb'⟩ := Window.forall_mem_main_cons rounds c.reply (calls.map reply) b
      obtain ⟨ihmain, ihall⟩ := ih hcalls b'
      have hgot := hc.gotMessage_iff rounds b
      have hrecv : ∀ a ∈ Window.received c.reply (c.reply.copyTo b), a.inRecv = false → a.Inside :=
        fun a ha hf => absurd (Window.received_inRecv a ha) (by rw [hf]; decide)
      have hflag : (0 < c.reply.ret →
          ∀ a ∈ (Window.gotMessage rounds c.reply.ret.toNat (c.reply.copyTo b)).1, a.inRecv = false → a.Inside) ↔
            (0 < c.reply.ret → ∀ a ∈ (Window.gotMessage rounds c.reply.ret.toNat (c.reply.copyTo b)).1, a.Inside) :=
        imp_congr_right fun _ => forall₂_congr fun a ha => imp_iff_right (Window.gotMessage_inRecv a ha)
      rw [List.map_cons, hb', hb', List.forall_mem_cons, List.forall_mem_cons, hflag, hgot, ihmain, ihall,
        hc.received_iff]
      refine ⟨and_iff_right hrecv, and_assoc.symm.trans (and_congr_left' ⟨?_, ?_⟩)⟩
      · rintro ⟨hlog, hfits⟩ msg hmsg
        exact ⟨hfits msg hmsg, hlog msg hmsg⟩
      · intro hboth
        exact ⟨fun msg hmsg => (hboth msg hmsg).2, fun msg hmsg => (hboth msg hmsg).1⟩

end RecvCall

/-- In every run of the server with messages that the kernel accepts: what `main` reads and writes lies inside
`buffer`, and inside the message and its terminator, as long as no message has the greatest size and none is "draw"
alone. With the log line of `ipc_recv`, a message needs a text that ends inside it or behind what is logged too. -/
theorem windowServer_inside_iff {calls : List RecvCall}
    (h : ∀ c ∈ calls, c.Made L buf Window.bufSize senderPid ∧ c.Accepted) (rounds : Nat) (b : Nat → UInt8) :
    ((∀ a ∈ Window.main rounds (calls.map RecvCall.reply) b, a.inRecv = false → a.Inside) ↔
        ∀ c ∈ calls, ∀ msg, c.message = some msg → Window.Fits msg) ∧
      ((∀ a ∈ Window.main rounds (calls.map RecvCall.reply) b, a.Inside) ↔
        ∀ c ∈ calls, ∀ msg, c.message = some msg → Window.Fits msg ∧ Window.Logged msg) :=
  RecvCall.main_inside_iff (fun c hc => RecvCall.reply_brings (h c hc).1 (h c hc).2) rounds b

/-! ## A message of the shell to itself, received with the loop of the server -/

/-- There is a call that finds any message which the kernel accepts. -/
theorem exists_recvCall (msg : List UInt8) (hmsg : msg.length ≤ maxMsgSize) :
    ∃ c : RecvCall, (∀ c' ∈ [c], c'.Made Layout.kernelMap Machine.dataVa Window.bufSize 0 ∧ c'.Accepted) ∧
      c.message = some msg := by
  obtain ⟨s₀, t, s, F, k, hsent, hsend, hbox⟩ := Machine.exists_accepted Layout.kernelMap msg hmsg
  obtain ⟨t', c, -, -, hbefore, hc, hp, -⟩ := hsent.recv hmsg
  have hcur : c.before.cur = 1 := by
    rw [hbefore]
    exact hsent.free.running.cur
  have hin : c.inbox = (s.kernel.procs 1).inbox := by
    rw [RecvCall.inbox, hcur, hbefore]
    rfl
  refine ⟨c, List.forall_mem_singleton.mpr ⟨hc, fun _ => ⟨_, k, 2, _, _, hsend, ?_, ?_⟩⟩, ?_⟩
  · rw [hcur]
    rfl
  · rw [hin, hcur, hbox]
  · obtain ⟨box, hfill⟩ := hsent.inbox
    rw [RecvCall.message, hin, hfill, IpcMessage.content_fill]
    rfl

/-- The server is sent "draw x" with its 0. -/
theorem windowServer_inside_drawX : ∃ calls : List RecvCall,
    (∃ c ∈ calls, c.message = some (ascii "draw x" ++ [0])) ∧
    ((∀ a ∈ Window.main 300 (calls.map RecvCall.reply) fun _ => 1, a.inRecv = false → a.Inside) ↔
      ∀ c ∈ calls, ∀ msg, c.message = some msg → Window.Fits msg) ∧
    ((∀ a ∈ Window.main 300 (calls.map RecvCall.reply) fun _ => 1, a.Inside) ↔
      ∀ c ∈ calls, ∀ msg, c.message = some msg → Window.Fits msg ∧ Window.Logged msg) := by
  obtain ⟨c, hcalls, hmsg⟩ := exists_recvCall (ascii "draw x" ++ [0]) (by decide)
  exact ⟨[c], ⟨c, List.mem_singleton_self c, hmsg⟩, windowServer_inside_iff hcalls 300 fun _ => 1⟩

/-- "draw" alone: what is read from `buffer + 5` on lies behind the terminator. -/
theorem windowServer_draw : ¬∀ (L : Layout) (buf senderPid : Nat) (calls : List RecvCall) (rounds : Nat)
    (b : Nat → UInt8), (∀ c ∈ calls, c.Made L buf Window.bufSize senderPid ∧ c.Accepted) →
      ∀ a ∈ Window.main rounds (calls.map RecvCall.reply) b, a.inRecv = false → a.Inside := by
  intro hall
  obtain ⟨c, hcalls, hmsg⟩ := exists_recvCall (ascii "draw") (by decide)
  have hbrings : ∀ c' ∈ [c], c'.reply.Brings c'.message :=
    fun c' hc' => RecvCall.reply_brings (hcalls c' hc').1 (hcalls c' hc').2
  have hinside := hall _ _ _ [c] 300 (fun _ => 1) hcalls
  have hfits := (RecvCall.main_inside_iff hbrings 300 fun _ => 1).1.mp hinside c (List.mem_singleton_self c) _ hmsg
  exact hfits.2 rfl

end RiscvOs
