import OfpProxy.Rewrite.Lemmas.Match
import OfpProxy.Rewrite.Lemmas.PacketOut
import OfpProxy.Schedule.Routing

/-!
This module shows when the class of a packet-in or a packet-out depends on what earlier frames left
behind it in the receive buffer.
-/

namespace OfpProxy

/--
The frames that carry a packet. A set-field action holds an OXM and is padded to a multiple of eight
bytes, so it has at least sixteen.
-/
inductive PacketFrame where
  | packetIn (p : PacketIn)
  | packetOut (p : PacketOut) (holdsOxm : ∀ a ∈ p.actions, a.isSetField = true → 16 ≤ a.len)

namespace PacketFrame

def encode : PacketFrame → List UInt8
  | packetIn p => p.encode
  | packetOut p _ => p.encode

-- what stands where the frame stood when the EtherType is read
def processed : PacketFrame → List UInt8
  | packetIn p => p.encode
  | packetOut p _ => p.strip.encode ++ p.encode.drop p.strip.length

def etherType : PacketFrame → Nat
  | packetIn p => 24 + p.mat.paddedLength + 2 + 12
  | packetOut p _ => 24 + p.strip.actionsLen + 12

/--
The EtherType lies inside the frame, or its first byte does and is not the one of LLDP.
-/
def Decided (f : PacketFrame) : Prop :=
  f.etherType + 1 < f.encode.length ∨ ∃ b ∈ f.processed[f.etherType]?, b ≠ 0x88

theorem header_le (f : PacketFrame) : 24 ≤ f.encode.length := by
  cases f with
  | packetIn p =>
    rw [encode, p.length_encode, PacketIn.length]
    omega
  | packetOut p holdsOxm =>
    rw [encode, p.length_encode, PacketOut.length]
    omega

theorem length_processed (f : PacketFrame) : f.processed.length = f.encode.length := by
  cases f with
  | packetIn p => rfl
  | packetOut p holdsOxm =>
    have hsum : setFieldLength p.actions + p.strip.actionsLen = p.actionsLen :=
      length_stripActions p.actions
    have hlen : p.length = 24 + p.actionsLen + p.data.length := rfl
    have hslen : p.strip.length = 24 + p.strip.actionsLen + p.data.length := rfl
    simp only [processed, encode, List.length_append, List.length_drop, PacketOut.length_encode]
    omega

def received (f : PacketFrame) (b : UInt8) : Mem :=
  fun j => f.encode.getD j (if j = f.etherType then 0x88 else if j = f.etherType + 1 then b else 0)

theorem at_received (f : PacketFrame) (b : UInt8) : (f.received b).At 0 f.encode := by
  rw [Mem.at_iff_get]
  intro i hi
  rw [Nat.zero_add, received, List.getD_eq_getElem?_getD, List.getElem?_eq_getElem hi]
  rfl

theorem received_behind (f : PacketFrame) (b : UInt8) {j : Nat} (hj : f.encode.length ≤ j)
    : f.received b j = if j = f.etherType then 0x88 else if j = f.etherType + 1 then b else 0 := by
  rw [received, List.getD_eq_getElem?_getD, List.getElem?_eq_none hj]
  rfl

end PacketFrame

def isLldp (msg : Mem) (etherType : Nat) : Bool := ntohs (msg.load16 etherType) = lldpType

theorem isLldp_iff (msg : Mem) (e : Nat) : isLldp msg e = true ↔ msg e = 0x88 ∧ msg (e + 1) = 0xcc := by
  have h1 := (msg e).toNat_lt
  have h2 := (msg (e + 1)).toNat_lt
  rw [isLldp, decide_eq_true_eq, Mem.ntohs_load16, ← UInt8.toNat_inj, ← UInt8.toNat_inj, lldpType]
  simp only [UInt8.reduceToNat]
  omega

theorem isLldp_congr {n e : Nat} {msg msg' : Mem} (hagree : Mem.Agree n msg msg')
    (h : e + 1 < n ∨ e < n ∧ msg e ≠ 0x88) : isLldp msg' e = isLldp msg e := by
  rw [Bool.eq_iff_iff, isLldp_iff, isLldp_iff, hagree e (by omega)]
  rcases h with hin | ⟨-, hne⟩
  . rw [hagree (e + 1) hin]
  . simp [hne]

theorem PacketIn.at_encode {msg : Mem} {p : PacketIn} (h : msg.At 0 p.encode)
    : headerLength msg = p.length ∧ msg 1 = ofptPacketIn ∧ getMatchLenth msg 24 = p.mat.paddedLength := by
  have hlt : p.length < 65536 := p.length_lt
  have hlen : p.length = 26 + p.mat.length + padding p.mat.length + p.data.length := by
    unfold PacketIn.length OfpMatch.paddedLength
    omega
  simp only [encode, Mem.at_append, List.length_append, length_head, Nat.zero_add] at h
  rcases h with ⟨⟨⟨hhead, hmat⟩, -⟩, -⟩
  simp only [head, Mem.at_append, List.length_append, length_be16, Mem.at_cons, List.length_cons,
    List.length_nil, p.xid.property, p.bufferId.property, p.totalLen.property] at hhead
  refine ⟨hhead.1.1.1.1.1.2.ntohs_load16 hlt, hhead.1.1.1.1.1.1.2.1, ?_⟩
  rw [getMatchLenth, (OfpMatch.at_encode hmat).2.1, padTo8_eq (by omega)]
  rfl

namespace Schedule

/--
How a frame is processed: `image` is what it leaves in the receive buffer, and `arg` is what is
returned for a frame that is LLDP, or is not.
-/
structure Processes (process : Mem → Option Parsed) (f : PacketFrame) (image : Mem → Mem)
    (arg : Bool → Nat → OFPMsgArg) : Prop where
  result : ∀ msg, msg.At 0 f.encode →
    ∃ res, process msg = some res ∧ res.msg = image msg
      ∧ res.arg =
        { arg (isLldp (image msg) f.etherType) ((image msg).load32 4) with len := headerLength (image msg) }
  image_at : ∀ msg, msg.At 0 f.encode → (image msg).At 0 f.processed
  behind : ∀ msg, msg.At 0 f.encode → ∀ j, f.encode.length ≤ j → image msg j = msg j
  length_le : ∀ msg, msg.At 0 f.encode → headerLength (image msg) ≤ f.encode.length
  maxWaitTime : ∀ identify, (arg true identify).maxWaitTime = 0 ∧ (arg false identify).maxWaitTime = 1

section Process

variable (exp : ℚ → ℚ) (self other : Schedule) (conf : PolicyConfig)

theorem getOFPMsgArg_packetIn {msg : Mem} (htype : msg 1 = ofptPacketIn)
    : getOFPMsgArg exp self other conf msg
        =
      some
        ⟨{ doOfpPacketinProcessed msg initArg with len := headerLength msg }, msg, self, other, conf⟩ := by
  unfold getOFPMsgArg dispatch
  rw [htype]
  rfl

def lldpArg (arg : OFPMsgArg) (priority : ℚ) (identify : Nat) : OFPMsgArg :=
  { arg with
      qid := some lldpQueueId
      priority := priority
      identify := some identify
      maxWaitTime := 0
      processTime := 0 }

theorem packetIn_processes (p : PacketIn)
    : ∃ arg, Processes (getOFPMsgArg exp self other conf) (.packetIn p) id arg := by
  refine ⟨fun lldp identify =>
    if lldp then lldpArg initArg (999 / 10) identify else { initArg with qid := some piQueueId },
    ?_, fun _ h => h, fun _ _ _ _ => rfl, ?_, fun _ => ⟨rfl, rfl⟩⟩
  . intro msg h
    rcases PacketIn.at_encode h with ⟨-, htype, hmatch⟩
    refine ⟨_, getOFPMsgArg_packetIn exp self other conf htype, rfl, ?_⟩
    simp only [doOfpPacketinProcessed, hmatch, PacketFrame.etherType, id, isLldp]
    by_cases hlldp : ntohs (msg.load16 (24 + p.mat.paddedLength + 2 + 12)) = lldpType
    . simp [hlldp, lldpArg]
    . simp [hlldp]
  . intro msg h
    have hlen : p.length = 26 + p.mat.paddedLength + p.data.length := rfl
    simp only [id, (PacketIn.at_encode h).1, PacketFrame.encode, p.length_encode]
    omega

-- The actions are the same in every buffer, so there is one result of copying them.
theorem packetOut_processed (p : PacketOut)
    (holdsOxm : ∀ a ∈ p.actions, a.isSetField = true → 16 ≤ a.len)
    : ∃ res : CopyValid, res.newActionListLen = p.strip.actionsLen
        ∧ ∀ msg, msg.At 0 p.encode →
          (PacketOutProcessed.shrink msg res).At 0 p.strip.encode
            ∧ doOfpPacketoutProcessed exp (self.toProcess conf msg)
              =
              some
                { msg := PacketOutProcessed.shrink msg res
                  arg :=
                    PacketOutProcessed.probe (PacketOutProcessed.shrink msg res)
                      (24 + p.strip.actionsLen) (PacketOutProcessed.route exp initArg res)
                  buf := res.buf
                  conf := res.conf } := by
  have hbase := Mem.at_ofList p.encode
  have hactions := (PacketOut.at_encode hbase).2.1
  have hlt : p.length < 65536 := p.length_lt
  have hlen : p.length = 24 + p.actionsLen + p.data.length := rfl
  have hactionsLen : (Action.codec.encodeAll p.actions).length = p.actionsLen := rfl
  rcases copyValidActionToBuf_spec 0xFF (self.buf.memset 500) conf hactions (by omega) with
    ⟨res, hcopy, hnew, -⟩
  refine ⟨res, hnew, ?_⟩
  intro msg h
  have hagree := hbase.agree h
  rw [p.length_encode] at hagree
  have hcopy' := copyValidActionToBuf_congr hagree hactions (by omega)
    (fun a ha htag => Nat.le_trans (by omega) (holdsOxm a ha htag)) 0xFF (self.buf.memset 500) conf
  rw [hcopy] at hcopy'
  have hprocessed := PacketOutProcessed.processed_eq exp (self.toProcess conf msg)
  simp only [toProcess, (PacketOutProcessed.lengths_eq h).2.1, ← hactionsLen, hcopy', Option.map_some]
    at hprocessed
  rcases @doOfpPacketoutProcessed_spec exp p (self.toProcess conf msg) h with ⟨st, hst, hat, -⟩
  simp only [toProcess, hprocessed, Option.some.injEq] at hst
  subst hst
  refine ⟨hat, ?_⟩
  rw [toProcess, hprocessed, (PacketOut.at_head (PacketOut.at_encode hat).1).2.2]

theorem packetOut_processes (p : PacketOut)
    (holdsOxm : ∀ a ∈ p.actions, a.isSetField = true → 16 ≤ a.len)
    : ∃ image arg, Processes (getOFPMsgArg exp self other conf) (.packetOut p holdsOxm) image arg := by
  have hsum : setFieldLength p.actions + p.strip.actionsLen = p.actionsLen := length_stripActions p.actions
  have hlen : p.length = 24 + p.actionsLen + p.data.length := rfl
  have hslen : p.strip.length = 24 + p.strip.actionsLen + p.data.length := rfl
  rcases packetOut_processed exp self conf p holdsOxm with ⟨res, hnew, hprocessed⟩
  let arg := PacketOutProcessed.route exp initArg res
  have hwait : arg.maxWaitTime = 1 := by
    unfold arg PacketOutProcessed.route
    split <;> rfl
  refine ⟨fun msg => PacketOutProcessed.shrink msg res,
    fun lldp identify => if lldp then lldpArg arg 0xFF identify else arg, ?_, ?_, ?_, ?_,
    fun _ => ⟨rfl, hwait⟩⟩
  . intro msg h
    have htype := (PacketOut.at_head (PacketOut.at_encode h).1).2.1
    rw [getOFPMsgArg, dispatch_packetOut exp self other conf htype, (hprocessed msg h).2]
    refine ⟨_, rfl, rfl, ?_⟩
    simp only [parsed, PacketOutProcessed.probe, PacketFrame.etherType, isLldp]
    by_cases hlldp
      : ntohs ((PacketOutProcessed.shrink msg res).load16 (24 + p.strip.actionsLen + 12)) = lldpType
    . simp [hlldp, lldpArg, arg]
    . simp [hlldp, arg]
  . intro msg h
    simp only [PacketFrame.processed, Mem.at_append, p.strip.length_encode, Nat.zero_add]
    refine ⟨(hprocessed msg h).1, ?_⟩
    have hdrop : msg.At p.strip.length (p.encode.drop p.strip.length) := by
      apply Mem.At.drop h
      rw [PacketFrame.encode, p.length_encode]
      omega
    apply hdrop.of_eq
    intro j hj _
    apply PacketOutProcessed.shrink_behind h hnew hj
  . intro msg h j hj
    simp only [PacketFrame.encode, p.length_encode] at hj
    apply PacketOutProcessed.shrink_behind h hnew (by omega)
  . intro msg h
    have hheader := (PacketOut.at_head (PacketOut.at_encode (hprocessed msg h).1).1).1
    simp only [hheader, PacketFrame.encode, p.length_encode]
    omega

theorem exists_processes (f : PacketFrame)
    : ∃ image arg, Processes (getOFPMsgArg exp self other conf) f image arg := by
  cases f with
  | packetIn p => exact ⟨id, packetIn_processes exp self other conf p⟩
  | packetOut p holdsOxm => apply packetOut_processes

end Process

structure SameClass (res res' : Parsed) : Prop where
  qid : res'.arg.qid = res.arg.qid
  priority : res'.arg.priority = res.arg.priority
  maxWaitTime : res'.arg.maxWaitTime = res.arg.maxWaitTime
  len : res'.arg.len = res.arg.len
  bytes : res'.msg.bytes 0 res'.arg.len = res.msg.bytes 0 res.arg.len

section Probe

variable {process : Mem → Option Parsed} {f : PacketFrame} {image : Mem → Mem}
  {arg : Bool → Nat → OFPMsgArg}

namespace Processes

theorem agree (h : Processes process f image arg) {msg msg' : Mem} (hmsg : msg.At 0 f.encode)
    (hmsg' : msg'.At 0 f.encode) : Mem.Agree f.encode.length (image msg) (image msg') := by
  rw [← f.length_processed]
  apply (h.image_at msg hmsg).agree (h.image_at msg' hmsg')

theorem sameClass (h : Processes process f image arg) {msg msg' : Mem} (hmsg : msg.At 0 f.encode)
    (hmsg' : msg'.At 0 f.encode)
    (hlldp : isLldp (image msg') f.etherType = isLldp (image msg) f.etherType)
    : ∃ res res', process msg = some res ∧ process msg' = some res' ∧ SameClass res res' := by
  have hagree := h.agree hmsg hmsg'
  have hle := h.length_le msg hmsg
  have hhead := f.header_le
  rcases h.result msg hmsg with ⟨res, hres, himage, harg⟩
  rcases h.result msg' hmsg' with ⟨res', hres', himage', harg'⟩
  have hheader : headerLength (image msg') = headerLength (image msg) := by
    unfold headerLength
    rw [hagree.load16 (by omega)]
  have hsame : res'.arg = res.arg := by
    rw [harg, harg', hlldp, hheader, hagree.load32 (by omega)]
  refine ⟨res, res', hres, hres', by rw [hsame], by rw [hsame], by rw [hsame], by rw [hsame], ?_⟩
  rw [hsame, himage, himage']
  apply hagree.bytes
  rw [harg]
  exact hle

theorem isLldp_received (h : Processes process f image arg) (hundecided : ¬f.Decided) (b : UInt8)
    : isLldp (image (f.received b)) f.etherType = decide (b = 0xcc) := by
  have hmsg := f.at_received b
  rw [PacketFrame.Decided, not_or, not_lt] at hundecided
  rcases hundecided with ⟨hle, hbyte⟩
  have hsecond : image (f.received b) (f.etherType + 1) = b := by
    rw [h.behind _ hmsg _ hle, f.received_behind b hle, if_neg (by omega), if_pos rfl]
  have hfirst : image (f.received b) f.etherType = 0x88 := by
    by_cases hin : f.etherType < f.processed.length
    . have hget := (h.image_at _ hmsg).get f.etherType hin
      rw [Nat.zero_add] at hget
      rw [hget]
      by_contra hne
      exact hbyte ⟨_, List.getElem?_eq_getElem hin, hne⟩
    . rw [f.length_processed] at hin
      rw [h.behind _ hmsg _ (by omega), f.received_behind b (by omega), if_pos rfl]
  rw [Bool.eq_iff_iff, isLldp_iff, hfirst, hsecond, decide_eq_true_eq]
  simp

theorem isLldp_eq (h : Processes process f image arg) (hdecided : f.Decided) {msg msg' : Mem}
    (hmsg : msg.At 0 f.encode) (hmsg' : msg'.At 0 f.encode)
    : isLldp (image msg') f.etherType = isLldp (image msg) f.etherType := by
  apply isLldp_congr (h.agree hmsg hmsg')
  rcases hdecided with hin | ⟨b, hb, hne⟩
  . exact .inl hin
  . rw [Option.mem_def, List.getElem?_eq_some_iff] at hb
    rcases hb with ⟨hin, hget⟩
    have himage := (h.image_at msg hmsg).get f.etherType hin
    rw [Nat.zero_add, hget] at himage
    rw [f.length_processed] at hin
    rw [himage]
    exact .inr ⟨hin, hne⟩

end Processes

end Probe

/--
The class of a packet-in or a packet-out depends on the frame alone if and only if the EtherType is
decided by it.
-/
theorem classified_alike_iff (exp : ℚ → ℚ) (self other : Schedule) (conf : PolicyConfig)
    (f : PacketFrame)
    : (∀ msg msg' : Mem, msg.At 0 f.encode → msg'.At 0 f.encode →
          ∃ res res', getOFPMsgArg exp self other conf msg = some res
            ∧ getOFPMsgArg exp self other conf msg' = some res' ∧ SameClass res res')
        ↔
      f.Decided := by
  rcases exists_processes exp self other conf f with ⟨image, arg, h⟩
  constructor
  . intro hclass
    by_contra hundecided
    have hlldp : isLldp (image (f.received 0xcc)) f.etherType = true := by
      rw [h.isLldp_received hundecided]
      decide
    have hplain : isLldp (image (f.received 0)) f.etherType = false := by
      rw [h.isLldp_received hundecided]
      decide
    rcases hclass _ _ (f.at_received 0xcc) (f.at_received 0) with ⟨res, res', hres, hres', hsame⟩
    rcases h.result _ (f.at_received 0xcc) with ⟨lldp, hlldp', -, harg⟩
    rcases h.result _ (f.at_received 0) with ⟨plain, hplain', -, harg'⟩
    rw [hres, Option.some_inj] at hlldp'
    rw [hres', Option.some_inj] at hplain'
    have hwait := hsame.maxWaitTime
    rw [hlldp', hplain', harg, harg', hlldp, hplain] at hwait
    dsimp only at hwait
    rw [(h.maxWaitTime _).1, (h.maxWaitTime _).2] at hwait
    simp at hwait
  . intro hdecided msg msg' hmsg hmsg'
    apply h.sameClass hmsg hmsg' (h.isLldp_eq hdecided hmsg hmsg')

-- a packet-out for a packet the switch has buffered
def bufferedPacketOut : PacketOut :=
  { taggedPacketOut with
      bufferId := ⟨[0, 0, 0, 7], rfl⟩
      actions := [outputAction]
      data := []
      length_lt := by decide }

def leftLldp : List UInt8 := List.replicate 12 0 ++ [0x88, 0xcc]

theorem bufferedPacketOut_classified_differently
    : ¬∀ (f : PacketFrame) (msg msg' : Mem), msg.At 0 f.encode → msg'.At 0 f.encode →
        ∃ res res', getOFPMsgArg (fun _ => 1) idle idle .idle msg = some res
          ∧ getOFPMsgArg (fun _ => 1) idle idle .idle msg' = some res' ∧ SameClass res res' := by
  intro hclass
  have hlldp : (getOFPMsgArg (fun _ => 1) idle idle .idle
      (.ofList (bufferedPacketOut.encode ++ leftLldp))).map (·.arg.maxWaitTime) = some 0 := by
    decide +kernel
  have hplain : (getOFPMsgArg (fun _ => 1) idle idle .idle
      (.ofList bufferedPacketOut.encode)).map (·.arg.maxWaitTime) = some 1 := by
    decide +kernel
  have hat := Mem.At.of_prefix (Mem.at_ofList (bufferedPacketOut.encode ++ leftLldp))
    (List.prefix_append _ _)
  rcases hclass (.packetOut bufferedPacketOut (by decide)) _ _ hat (Mem.at_ofList _) with
    ⟨res, res', hres, hres', hsame⟩
  rw [hres, Option.map_some, Option.some_inj] at hlldp
  rw [PacketFrame.encode] at hres'
  rw [hres', Option.map_some, Option.some_inj, hsame.maxWaitTime, hlldp] at hplain
  simp at hplain

end Schedule
end OfpProxy
