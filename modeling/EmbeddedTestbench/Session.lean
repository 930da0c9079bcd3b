import EmbeddedTestbench.EndToEnd

/-!
# A session (`PacketSerial.c`)

A program registers handlers and sends messages, in any order. `Session` is the state of the module
with a record of each `send`. What a handler answers may depend on everything that was sent before,
but it does not call the module itself.

Each message goes to the handler that was registered last. A packet says whether it is the last one
of its message, so the messages in a row of packets can be told apart.

Headlines:
* `run_serves`: each `send` of a session hands its packets to the handler of that time, and answers
  whether there was one that took them all.
* **`session_recovers`**: a handler is given the packets of the messages that are for it and no
  others, and they decide how many messages there were, and what each of them carried.
-/

namespace EmbeddedTestbench

open Nanopb PacketSerial EmbeddedTestbench.Lib

variable {H : Type}

/-! ## Definitions -/

namespace PacketSerial

/-- `tx_handler` and `rx_handler`; `none` is `NULL`. -/
structure Handlers (H : Type) where
  tx : Option H
  rx : Option H
  deriving DecidableEq, Repr

/-- At program start. -/
def Handlers.init : Handlers H := ⟨none, none⟩

/-- `register_rx_handler`. -/
def registerRxHandler (handler : Option H) (handlers : Handlers H) : Handlers H :=
  { handlers with rx := handler }

/-- `register_tx_handler`. -/
def registerTxHandler (handler : Option H) (handlers : Handlers H) : Handlers H :=
  { handlers with tx := handler }

/-- `clear_handlers`. -/
def clearHandlers (_ : Handlers H) : Handlers H := ⟨none, none⟩

/-- `update`. -/
def update (handlers : Handlers H) : Handlers H := handlers

end PacketSerial

/-- A call of the module. -/
inductive Request (H : Type) where
  | registerRxHandler (handler : Option H)
  | registerTxHandler (handler : Option H)
  | clearHandlers
  | update
  | send (buffer : List UInt8)

/-- What became of a `send`: who got the packets, what it returned, and the calls it made. -/
structure SendRecord (H : Type) where
  handler : Option H
  status : Bool
  calls : List TxCall

/-- The handlers, and the `send`s up to now. -/
structure Session (H : Type) where
  handlers : Handlers H
  sent : List (SendRecord H)

namespace Session

/-- At program start. -/
def init : Session H := ⟨.init, []⟩

/-- `send` with the handler that is registered. -/
def send (answer : H → List (SendRecord H) → List TxCall → List UInt8 → Nat → Bool) (s : Session H)
    (buffer : List UInt8) : Session H :=
  let tx : TxHandler := fun calls => s.handlers.tx.map fun h => answer h s.sent calls
  let (status, calls) := PacketSerial.send tx buffer buffer.length
  { s with sent := s.sent ++ [⟨s.handlers.tx, status, calls⟩] }

/-- A call. -/
def step (answer : H → List (SendRecord H) → List TxCall → List UInt8 → Nat → Bool)
    (s : Session H) : Request H → Session H
  | .registerRxHandler handler => { s with handlers := registerRxHandler handler s.handlers }
  | .registerTxHandler handler => { s with handlers := registerTxHandler handler s.handlers }
  | .clearHandlers => { s with handlers := clearHandlers s.handlers }
  | .update => { s with handlers := update s.handlers }
  | .send buffer => s.send answer buffer

/-- One call after the other. -/
def run (answer : H → List (SendRecord H) → List TxCall → List UInt8 → Nat → Bool) (s : Session H)
    (requests : List (Request H)) : Session H :=
  requests.foldl (step answer) s

end Session

/-- What is received of a call: the flag and the string of the packet. -/
def observed (q : Packet) (call : TxCall) : List (UInt32 × List UInt8) :=
  (receive q call).2.map fun packet => (packet.flag, packet.data.str)

/-- What is received of the calls of a handler, one behind the other. -/
def Session.receivedBy [DecidableEq H] (q : Packet) (h : H) (s : Session H) :
    List (UInt32 × List UInt8) :=
  (s.sent.filter fun r => r.handler = some h).flatMap fun r => r.calls.flatMap (observed q)

/-! ## The packets of a message -/

/-- The flags and strings of the packets of a message. -/
def messagePackets (bytes : List UInt8) : List (UInt32 × List UInt8) :=
  (packets bytes).map fun item => (item.2.flag, cString item.1)

/-- What arrives of a message. -/
def arrived (bytes : List UInt8) : List UInt8 := (messagePackets bytes).flatMap Prod.snd

/-- The flag of the last packet of a message. -/
def LastFlag (flag : UInt32) : Prop := flag = PacketFlag.last.code ∨ flag = PacketFlag.firstlast.code

instance : DecidablePred LastFlag := fun _ => inferInstanceAs (Decidable (_ ∨ _))

section Message

variable {bytes : List UInt8} (h : Sendable bytes.length)
include h

/-- They do not depend on the handler. -/
theorem observed_send (q : Packet) (answer : List TxCall → List UInt8 → Nat → Bool) :
    (send (fun calls => some (answer calls)) bytes bytes.length).2.flatMap (observed q)
      = messagePackets bytes := by
  have hmap := map_send h answer (f := observed q)
    (g := fun item => [(item.2.flag, cString item.1)]) fun item hitem calls => by
      obtain ⟨packet, hreceive, hstr, -, -, hflag⟩ := receive_packet q h answer calls hitem
      rw [observed, hreceive, List.map_singleton, hstr, hflag]
  rw [List.flatMap_def, hmap, ← List.flatMap_def, ← List.map_eq_flatMap, messagePackets]

/-- Only the last packet has the flag of a last one. -/
theorem messagePackets_endsMarked : EndsMarked (fun x => LastFlag x.1) (messagePackets bytes) := by
  have hflags : (messagePackets bytes).map Prod.fst
      = (if totalChunks bytes.length = 1 then [PacketFlag.firstlast]
        else .first :: List.replicate (totalChunks bytes.length - 2) .continue ++ [.last]).map
          PacketFlag.code := by
    rw [messagePackets, List.map_map, ← flags_eq h, List.map_map]
    exact packets_map_index fun _ _ => rfl
  have hmarked : EndsMarked LastFlag ((messagePackets bytes).map Prod.fst) := by
    rw [hflags]
    split_ifs
    · exact ⟨[], PacketFlag.firstlast.code, rfl, Or.inr rfl, List.forall_mem_nil _⟩
    · refine ⟨(PacketFlag.first :: List.replicate _ .continue).map PacketFlag.code,
        PacketFlag.last.code, List.map_append, Or.inl rfl, ?_⟩
      intro flag hflag
      rw [List.map_cons, List.mem_cons, List.map_replicate, List.mem_replicate] at hflag
      rcases hflag with rfl | ⟨-, rfl⟩ <;> decide
  exact hmarked.of_map

/-- What arrives is what a receiver puts together. -/
theorem carried_eq_arrived (q : Packet) (answer : List TxCall → List UInt8 → Nat → Bool) :
    carried q answer bytes = arrived bytes := by
  rw [arrived, ← observed_send h q answer, carried, PacketSerial.receivedData,
    List.flatMap_assoc]
  congr 1
  funext call
  rw [observed, List.flatMap_map]

theorem arrived_eq_iff : arrived bytes = bytes ↔ Intact bytes := by
  rw [← carried_eq_arrived h .initZero fun _ _ _ => true]
  exact carried_eq_iff h _ _

end Message

/-! ## Each message goes to the handler of its time -/

/-- The messages of a session, each with the handler that it is for. -/
def routed : Option H → List (Request H) → List (Option H × List UInt8)
  | _, [] => []
  | _, .registerTxHandler handler :: requests => routed handler requests
  | _, .clearHandlers :: requests => routed none requests
  | tx, .registerRxHandler _ :: requests => routed tx requests
  | tx, .update :: requests => routed tx requests
  | tx, .send buffer :: requests => (tx, buffer) :: routed tx requests

/-- The messages for a handler. -/
def sentTo [DecidableEq H] (h : H) (requests : List (Request H)) : List (List UInt8) :=
  ((routed none requests).filter fun m => m.1 = some h).map Prod.snd

/-- What `send` has to do with a message: without a handler nothing is handed over. -/
structure Serves (m : Option H × List UInt8) (r : SendRecord H) : Prop where
  handler : r.handler = m.1
  status : r.status = (m.1.isSome && r.calls.all TxCall.answer)
  observed : ∀ q, r.calls.flatMap (observed q) = if m.1.isSome then messagePackets m.2 else []

/-- Every message of the calls can be sent. -/
def AllSendable (requests : List (Request H)) : Prop :=
  ∀ buffer, .send buffer ∈ requests → Sendable buffer.length

variable {answer : H → List (SendRecord H) → List TxCall → List UInt8 → Nat → Bool}

/-- Without a handler `send` gives up at its first packet. -/
theorem send_null {buffer : List UInt8} (h : Sendable buffer.length) :
    send (fun _ => none) buffer buffer.length = (false, []) := by
  rw [send, h.totalChunks]
  rfl

/-- A `send` of a session. -/
theorem serves_send (s : Session H) {buffer : List UInt8} (h : Sendable buffer.length) :
    ∃ r, s.send answer buffer = { s with sent := s.sent ++ [r] } ∧
      Serves (s.handlers.tx, buffer) r := by
  rw [Session.send]
  cases htx : s.handlers.tx with
  | none =>
    simp only [Option.map_none, send_null h]
    exact ⟨_, rfl, rfl, rfl, fun _ => rfl⟩
  | some handler =>
    have hstatus : (send (fun calls => some (answer handler s.sent calls)) buffer buffer.length).1
        = (send (fun calls => some (answer handler s.sent calls)) buffer buffer.length).2.all
          TxCall.answer := by
      rw [send_eq (answer handler s.sent) h]
    exact ⟨_, rfl, rfl, hstatus, fun q => observed_send h q (answer handler s.sent)⟩

/-- **Each `send` of a session** serves its message, with the handler of that time. -/
theorem run_serves {requests : List (Request H)} (hall : AllSendable requests) (s : Session H) :
    ∃ records, (s.run answer requests).sent = s.sent ++ records ∧
      List.Forall₂ Serves (routed s.handlers.tx requests) records := by
  induction requests generalizing s with
  | nil => exact ⟨[], (List.append_nil _).symm, .nil⟩
  | cons request requests ih =>
    have hrest : AllSendable requests := fun buffer hbuffer =>
      hall buffer (List.mem_cons_of_mem request hbuffer)
    cases request with
    | send buffer =>
      obtain ⟨r, hstep, hserves⟩ := @serves_send H answer s buffer (hall buffer List.mem_cons_self)
      obtain ⟨records, hsent, hrecords⟩ := ih hrest (s.send answer buffer)
      rw [hstep] at hsent hrecords
      refine ⟨r :: records, ?_, .cons hserves hrecords⟩
      rw [Session.run, List.foldl_cons, Session.step, hstep]
      exact hsent.trans (List.append_assoc s.sent [r] records)
    | registerRxHandler handler => exact ih hrest (s.step answer (.registerRxHandler handler))
    | registerTxHandler handler => exact ih hrest (s.step answer (.registerTxHandler handler))
    | clearHandlers => exact ih hrest (s.step answer .clearHandlers)
    | update => exact ih hrest (s.step answer .update)

/-! ## The messages can be told apart -/

theorem routed_sendable {requests : List (Request H)} (hall : AllSendable requests) :
    ∀ (tx : Option H), ∀ m ∈ routed tx requests, Sendable m.2.length := by
  induction requests with
  | nil => exact fun _ _ hm => absurd hm List.not_mem_nil
  | cons request requests ih =>
    have ih := ih fun buffer hbuffer => hall buffer (List.mem_cons_of_mem request hbuffer)
    intro tx m hm
    cases request with
    | send buffer =>
      rcases List.mem_cons.mp hm with rfl | hm
      · exact hall buffer List.mem_cons_self
      · exact ih tx m hm
    | registerTxHandler handler => exact ih handler m hm
    | clearHandlers => exact ih none m hm
    | registerRxHandler _ => exact ih tx m hm
    | update => exact ih tx m hm

variable [DecidableEq H]

theorem sentTo_sendable {requests : List (Request H)} (hall : AllSendable requests) (h : H) :
    ∀ bytes ∈ sentTo h requests, Sendable bytes.length := by
  intro bytes hbytes
  obtain ⟨m, hm, rfl⟩ := List.mem_map.mp hbytes
  exact routed_sendable hall none m (List.mem_of_mem_filter hm)

/-- A handler gets the packets of the messages that are for it, and no others. -/
theorem receivedBy_run {requests : List (Request H)} (hall : AllSendable requests) (q : Packet)
    (h : H) : (Session.init.run answer requests).receivedBy q h
      = (sentTo h requests).flatMap messagePackets := by
  obtain ⟨records, hsent, hserves⟩ := @run_serves H answer requests hall .init
  have hrecords : ∀ {ms : List (Option H × List UInt8)} {records : List (SendRecord H)},
      List.Forall₂ Serves ms records →
      (records.filter fun r => r.handler = some h).flatMap (fun r => r.calls.flatMap (observed q))
        = ((ms.filter fun m => m.1 = some h).map Prod.snd).flatMap messagePackets := by
    intro ms records hserves
    induction hserves with
    | nil => rfl
    | @cons m r ms records hr _ ih =>
      rw [List.filter_cons, List.filter_cons, hr.handler]
      by_cases hm : m.1 = some h
      · rw [if_pos (by simpa using hm), if_pos (by simpa using hm), List.flatMap_cons,
          List.map_cons, List.flatMap_cons, ih, hr.observed q, hm]
        rfl
      · rw [if_neg (by simpa using hm), if_neg (by simpa using hm), ih]
  rw [Session.receivedBy, hsent]
  exact hrecords hserves

/-- **Each message goes to the handler of its time, and can be told from the others**: a handler is
given the flags and strings of the messages for it, one behind the other, and no others. In two
sessions in which handlers get the same, there were as many messages for the one as for the other,
with the same bytes that arrive, and where all of them are intact they are the same messages. -/
theorem session_recovers {H' : Type} [DecidableEq H']
    (answer : H → List (SendRecord H) → List TxCall → List UInt8 → Nat → Bool)
    (answer' : H' → List (SendRecord H') → List TxCall → List UInt8 → Nat → Bool)
    (requests : List (Request H)) (requests' : List (Request H')) (hall : AllSendable requests)
    (hall' : AllSendable requests') (q q' : Packet) (h : H) (h' : H') :
    (Session.init.run answer requests).receivedBy q h
      = (sentTo h requests).flatMap messagePackets ∧
    ((Session.init.run answer requests).receivedBy q h
        = (Session.init.run answer' requests').receivedBy q' h' →
      (sentTo h requests).map arrived = (sentTo h' requests').map arrived ∧
      ((∀ bytes ∈ sentTo h requests, Intact bytes) →
        (∀ bytes ∈ sentTo h' requests', Intact bytes) →
          sentTo h requests = sentTo h' requests')) := by
  refine ⟨receivedBy_run hall q h, fun hreceived => ?_⟩
  have hsend := sentTo_sendable hall h
  have hsend' := sentTo_sendable hall' h'
  rw [receivedBy_run hall, receivedBy_run hall', List.flatMap_def, List.flatMap_def] at hreceived
  have hsame := EndsMarked.flatten_inj (p := fun x : UInt32 × List UInt8 => LastFlag x.1)
    (List.forall_mem_map.mpr fun bytes hbytes => messagePackets_endsMarked (hsend bytes hbytes))
    (List.forall_mem_map.mpr fun bytes hbytes => messagePackets_endsMarked (hsend' bytes hbytes))
    hreceived
  have harrived : (sentTo h requests).map arrived = (sentTo h' requests').map arrived := by
    have hmap := congrArg (List.map fun l => l.flatMap Prod.snd) hsame
    rwa [List.map_map, List.map_map] at hmap
  refine ⟨harrived, fun hintact hintact' => ?_⟩
  have hself : ∀ {ms : List (List UInt8)}, (∀ bytes ∈ ms, Sendable bytes.length) →
      (∀ bytes ∈ ms, Intact bytes) → ms.map arrived = ms := fun hms hint =>
    (List.map_congr_left fun bytes hbytes =>
      (arrived_eq_iff (hms bytes hbytes)).mpr (hint bytes hbytes)).trans (List.map_id _)
  rwa [hself hsend hintact, hself hsend' hintact'] at harrived

/-- Two sessions that differ in who else was registered, and behind a zero byte. What was sent to
the other handler is not among what the first one gets. -/
theorem session_recovers_zero :
    let requests : List (Request Bool) :=
      [.registerTxHandler (some true), .send [1, 0, 2], .registerTxHandler (some false), .send [5],
        .registerTxHandler (some true), .send [7]]
    let requests' : List (Request Bool) :=
      [.registerRxHandler (some false), .registerTxHandler (some true), .send [1, 0, 3], .update,
        .send [7], .clearHandlers, .send [5]]
    (Session.init.run (fun _ _ _ _ _ => true) requests).receivedBy .initZero true
        = messagePackets [1, 0, 2] ++ messagePackets [7] ∧
      (sentTo true requests).map arrived = (sentTo true requests').map arrived := by
  intro requests requests'
  have hall : AllSendable requests := by
    simp only [AllSendable, requests, List.mem_cons, List.not_mem_nil, reduceCtorEq,
      Request.send.injEq, false_or, or_false]
    rintro buffer (rfl | rfl | rfl) <;> decide
  have hall' : AllSendable requests' := by
    simp only [AllSendable, requests', List.mem_cons, List.not_mem_nil, reduceCtorEq,
      Request.send.injEq, false_or, or_false]
    rintro buffer (rfl | rfl | rfl) <;> decide
  obtain ⟨hgiven, hrecovers⟩ := session_recovers (fun _ _ _ _ _ => true) (fun _ _ _ _ _ => true)
    requests requests' hall hall' .initZero .initZero true true
  exact ⟨hgiven, (hrecovers (by decide +kernel)).1⟩

end EmbeddedTestbench
