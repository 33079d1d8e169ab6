import ClearSign.Proofs.Session.Command

/-!
This module contains where the host finds the status word of a reply, and the proof that there is
always room for it.
-/

namespace ClearSign

namespace Exchange

def status? (exchange : Exchange) : Option Status :=
  (Status.ofBytes ((exchange.buffer.take exchange.tx).drop (exchange.tx - 2))).toOption

theorem status?_conclude (exchange : Exchange) (status : Status)
    (h : exchange.tx + 2 ≤ exchange.buffer.length) :
    (exchange.conclude status).status? = some status := by
  have hbytes : status.toBytes.length = 2 := rfl
  have hbefore : (exchange.buffer.take exchange.tx).length = exchange.tx := by
    rw [List.length_take]
    omega
  unfold status? conclude
  rw [if_pos h]
  dsimp only
  have hreply : (exchange.buffer.take exchange.tx ++ status.toBytes).length = exchange.tx + 2 := by
    rw [List.length_append, hbefore, hbytes]
  rw [List.take_left' hreply, Nat.add_sub_cancel, List.drop_left' hbefore, Status.ofBytes_toBytes]
  rfl

end Exchange

namespace Session

theorem length_refusal (fault : Fault) (frame : Frame) :
    (refusal fault frame).body.length + 2 ≤ frame.buffer.length := by
  have hheader := frame.header_le_length
  rw [refusal, List.length_take]
  omega

theorem length_body_getAddress (keys : Keystore) (session : Session) (frame : Frame) :
    (session.getAddress keys frame).2.body.length + 2 ≤ frame.buffer.length := by
  have hheader := frame.header_le_length
  have hempty : ([] : Bytes).length + 2 ≤ frame.buffer.length := by
    rw [List.length_nil]
    omega
  unfold getAddress
  split
  · exact hempty
  split
  · exact hempty
  split
  · exact hempty
  split
  · exact hempty
  split
  · exact hempty
  · next hroom =>
    dsimp only
    omega

theorem length_body_of_signs {result : Session × Answer}
    (h : Signs device keys kind session frame result) :
    result.2.body.length + 2 ≤ frame.buffer.length := by
  have hheader := frame.header_le_length
  have hempty : ([] : Bytes).length + 2 ≤ frame.buffer.length := by
    rw [List.length_nil]
    omega
  cases h with
  | refused => exact hempty
  | badPath => exact hempty
  | started => exact hempty
  | added => exact hempty
  | completed payload buffer path result hphase hpayload hinitialized happend hrequest hcompletes =>
    cases hcompletes with
    | keyless => exact hempty
    | refused key fault => exact length_refusal fault frame
    | opened => exact hempty

theorem length_body_dispatch (device : Device) (keys : Keystore) (session : Session)
    (frame : Frame) :
    (session.dispatch device keys frame).2.body.length + 2 ≤ frame.buffer.length := by
  have hheader := frame.header_le_length
  have hempty : ([] : Bytes).length + 2 ≤ frame.buffer.length := by
    rw [List.length_nil]
    omega
  unfold dispatch
  split
  · exact hempty
  split
  · exact hempty
  · unfold getVersion
    split
    · exact hempty
    · next hroom =>
      dsimp only
      omega
  · exact length_body_getAddress keys session frame
  · exact length_body_of_signs (signs device keys _ session frame)

theorem exchange_of_ok (device : Device) (keys : Keystore) (session : Session)
    (hframe : Frame.ofBuffer before.buffer received = .ok frame) :
    session.exchange device keys received before =
      ((session.dispatch device keys frame).1,
        (Exchange.ofAnswer (session.dispatch device keys frame).2 frame).conclude
          (session.dispatch device keys frame).2.status) := by
  simp only [exchange, hframe]

theorem step_command (device : Device) (keys : Keystore) (session : Session)
    (hframe : Frame.ofBuffer before.buffer received = .ok frame) :
    (session.step device keys (.command received before)).1 =
      (session.dispatch device keys frame).1 := by
  rw [step, exchange_of_ok device keys session hframe]

theorem step_command_of_error (device : Device) (keys : Keystore) (session : Session)
    (hframe : Frame.ofBuffer before.buffer received = .error short) :
    (session.step device keys (.command received before)).1 = session := by
  simp only [step, exchange, hframe]

theorem status?_exchange (device : Device) (keys : Keystore) (session : Session)
    (hframe : Frame.ofBuffer before.buffer received = .ok frame) :
    (session.exchange device keys received before).2.status? =
      some (session.dispatch device keys frame).2.status := by
  have hbody := length_body_dispatch device keys session frame
  rw [exchange_of_ok device keys session hframe]
  apply Exchange.status?_conclude
  dsimp only [Exchange.ofAnswer]
  rw [length_overwrite]
  · exact hbody
  · omega

end Session

end ClearSign
