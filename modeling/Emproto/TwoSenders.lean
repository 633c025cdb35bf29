import Emproto.TwoHosts
import Emproto.WireImage
import Emproto.TokenLoops

/-! One call of a formatter on hosts of different byte orders. Code that puts what it stores into
the order of the network runs alike on both, and what is left are the flags of the main header. -/

namespace Emproto

namespace Alike
variable {α : Type} {host host' : ByteOrder} {p : Nat}

theorem emits {c c' : Code α} {a : α} {ws : List (Nat × UInt8)} (h : Alike c c')
    (emits : Emits c a ws) : Emits c' a ws := fun m => h m ▸ emits m

theorem store {W : Type} [Word W] (w : W) :
    Alike (Code.store host p (hton host w)) (Code.store host' p (hton host' w)) := by
  intro m
  rw [Code.run_store, Code.run_store, bytes_hton, bytes_hton]

theorem storeByte (v : UInt8) : Alike (Code.store host p v) (Code.store host' p v) := by
  intro m
  rw [Code.run_store, Code.run_store, bytes_uint8, bytes_uint8]

theorem put {W : Type} [Word W] {w : W} {f f' : Unit → Code α} (hf : Alike (f ()) (f' ())) :
    Alike (Code.store host p (hton host w) >>= f) (Code.store host' p (hton host' w) >>= f') :=
  (store w).bind fun _ => hf

theorem putByte {v : UInt8} {f f' : Unit → Code α} (hf : Alike (f ()) (f' ())) :
    Alike (Code.store host p v >>= f) (Code.store host' p v >>= f') :=
  (storeByte v).bind fun _ => hf

theorem note {e : Event} {f f' : Unit → Code α} (hf : Alike (f ()) (f' ())) :
    Alike (Code.note e >>= f) (Code.note e >>= f') := (refl _).bind fun _ => hf

theorem fillTokens {width : Nat} {tok tok' : Nat → Nat → Code Unit}
    (each : ∀ i c, Alike (tok i c) (tok' i c)) (fin k i c : Nat) :
    Alike (fillTokens width tok fin k i c) (Emproto.fillTokens width tok' fin k i c) := by
  induction k generalizing i c with
  | zero => exact .refl _
  | succ k ih => exact .ite (.refl _) (.note ((each i c).bind fun _ => ih (i + 1) (c + width)))

end Alike

section Tokens
variable {host host' : ByteOrder}

theorem putCellCap_alike (cells : Nat → EpCellDet) (i c : Nat) :
    Alike (putCellCap host cells i c) (putCellCap host' cells i c) :=
  .put <| .put <| .put <| .put <| .put <| .putByte <| .put <| .putByte <| .store _

theorem putRanCap_alike (ran : Nat → EpRanDet) (i c : Nat) :
    Alike (putRanCap host ran i c) (putRanCap host' ran i c) :=
  .put <| .put <| .put <| .put <| .put <| .put <| .put <| .store _

theorem putRrcReport_alike (rrc : Nat → EpUeRRCReport) (i c : Nat) :
    Alike (putRrcReport host rrc i c) (putRrcReport host' rrc i c) :=
  .put <| .put <| .put <| .put <| .put <| .store _

theorem putRrcMeas_alike (rrc : Nat → EpUeRRCMeas) (i c : Nat) :
    Alike (putRrcMeas host rrc i c) (putRrcMeas host' rrc i c) :=
  .put <| .put <| .put <| .put <| .put <| .put <| .store _

theorem formatRrcs_alike {α : Type} {width : Nat} {tok tok' : Nat → Nat → Code Unit}
    (each : ∀ i c, Alike (tok i c) (tok' i c)) (rep : CountedArray α) (p : Nat) (size : UInt32) :
    Alike (formatRrcs width tok rep p size) (formatRrcs width tok' rep p size) :=
  (Alike.fillTokens each _ _ _ _).bind fun _ => .refl _

theorem rntiFill_alike (rntis : Nat → UInt16) (fin n i cur : Nat) :
    Alike (rntiFill host fin rntis n i cur) (rntiFill host' fin rntis n i cur) := by
  induction n generalizing i cur with
  | zero => exact .refl _
  | succ n ih => exact .ite (.refl _) (.note (.put (ih (i + 1) (cur + 2))))

theorem epfTLVRntiReport_alike (p : Nat) (size : UInt32) (rntis : Nat → UInt16)
    (nofRntis : UInt32) :
    Alike (epfTLVRntiReport host p size rntis nofRntis)
      (epfTLVRntiReport host' p size rntis nofRntis) := by
  refine .put ((rntiFill_alike rntis _ _ _ _).bind fun cur => ?_)
  cases cur with
  | none => exact .refl _
  | some cur => exact .put (.refl _)

theorem epfRanTLVUsr_alike (p : Nat) (size : UInt32) (det : EpRanSliceDet) (s : Int) (c : Nat) :
    Alike (epfRanTLVUsr host p size det s c) (epfRanTLVUsr host' p size det s c) :=
  .ite ((epfTLVRntiReport_alike c _ _ _).bind fun _ => .refl _) (.refl _)

theorem epfRanTLV_alike (p : Nat) (size : UInt32) (det : EpRanSliceDet) :
    Alike (epfRanTLV host p size det) (epfRanTLV host' p size det) := by
  refine .ite (.refl _) <| .put <| .put <| .put <| .ite (epfRanTLVUsr_alike _ _ det 6 _) ?_
  exact .ite (.refl _) <| .put <| .put <| .put <| epfRanTLVUsr_alike _ _ det 14 _

end Tokens

section Bodies
variable {host host' : ByteOrder} {p : Nat} {size : UInt32}

theorem formatHello_alike (id : UInt32) :
    Alike (formatHello host id p size) (formatHello host' id p size) :=
  .ite (.refl _) (.put (.refl _))

theorem formatSliceId_alike (id : UInt64) :
    Alike (formatSliceId host id p size) (formatSliceId host' id p size) :=
  .ite (.refl _) (.put (.refl _))

theorem epfHoRep_alike (enb : UInt64) (pci origin target : UInt16) :
    Alike (epfHoRep host enb pci origin target p size)
      (epfHoRep host' enb pci origin target p size) :=
  .ite (.refl _) <| .put <| .put <| .put <| .put <| .refl _

theorem epfHoReq_alike (rnti : UInt16) (enb : UInt64) (pci : UInt16) (cause : UInt8) :
    Alike (epfHoReq host rnti enb pci cause p size) (epfHoReq host' rnti enb pci cause p size) :=
  .ite (.refl _) <| .put <| .put <| .put <| .putByte <| .refl _

theorem epfCellMeasReq_alike : Alike (epfCellMeasReq host p size) (epfCellMeasReq host' p size) :=
  .ite (.refl _) <| .put <| .put <| .refl _

theorem epfCellMeasRep_alike (rep : EpCellRep) :
    Alike (epfCellMeasRep host rep p size) (epfCellMeasRep host' rep p size) :=
  .ite (.put <| .put <| .putByte <| .put <| .putByte <| .put <| .refl _) (.refl _)

theorem epfUerepReq_alike : Alike (epfUerepReq host p size) (epfUerepReq host' p size) :=
  .ite (.refl _) (.putByte (.refl _))

theorem epfRanEup_alike (det : EpRanDet) :
    Alike (epfRanEup host det p size) (epfRanEup host' det p size) := by
  refine .ite (.refl _) <| .put <| .put <| .put <| .ite (.ite (.refl _) ?_) (.refl _)
  exact .put <| .put <| .put <| .refl _

theorem uerepFill_alike (fin : Nat) (ues : Option (Nat → EpUeDetails)) (k i c : Nat) (s : Int) :
    Alike (uerepFill host fin ues k i c s) (uerepFill host' fin ues k i c s) := by
  induction k generalizing i c s with
  | zero => exact .refl _
  | succ k ih =>
    cases ues with
    | none => exact .refl _
    | some us =>
      refine .note (.ite (ih (i + 1) c s) (.ite (.refl _) ?_))
      exact .put <| .put <| .put <| .put <| .put <| .put <| .putByte <| ih _ _ _

theorem epfEcapRep_alike (det : Option EpEnbDet) :
    Alike (epfEcapRep host det p size) (epfEcapRep host' det p size) := by
  cases det with
  | none => exact .refl _
  | some det =>
    refine (Alike.fillTokens (putCellCap_alike det.cells) _ _ _ _).bind fun c => ?_
    cases c with
    | none => exact .refl _
    | some c => exact (Alike.fillTokens (putRanCap_alike det.ran) _ _ _ _).bind fun _ => .refl _

theorem epfUemeasReq_alike (meas : Option EpUeMeas) :
    Alike (epfUemeasReq host meas p size) (epfUemeasReq host' meas p size) := by
  cases meas with
  | none => exact .refl _
  | some meas => exact formatRrcs_alike (putRrcMeas_alike meas.entry) meas p size

theorem slice_alike (id : UInt64) (det : EpRanSliceDet) :
    Alike (do
      Code.store host p (htobe64 host id)
      let s ← epfRanTLV host (p + 8) (size - UInt32.ofNat 8) det
      pure (toInt32 (8 + s))) (do
      Code.store host' p (htobe64 host' id)
      let s ← epfRanTLV host' (p + 8) (size - UInt32.ofNat 8) det
      pure (toInt32 (8 + s))) :=
  .put ((epfRanTLV_alike _ _ det).bind fun _ => .refl _)

theorem epfRanSup_alike (id : UInt64) (det : Option EpRanSliceDet) :
    Alike (epfRanSup host id det p size) (epfRanSup host' id det p size) := by
  cases det with
  | none => exact .put (.refl _)
  | some det => exact slice_alike id det

theorem formatSlice_alike (id : UInt64) (det : Option EpRanSliceDet) :
    Alike (formatSlice host id det p size) (formatSlice host' id det p size) := by
  cases det with
  | none => exact .ite (.refl _) (.put (.refl _))
  | some det => exact .ite (.refl _) (slice_alike id det)

end Bodies

namespace Message

theorem body_alike (msg : Message) (host host' : ByteOrder) (size : UInt32) (p : Nat) (s : UInt32) :
    Alike (msg.body host size p s) (msg.body host' size p s) := by
  cases msg with
  | singleHelloReq id | singleHelloRep id | schedHelloReq interval id
  | schedHelloRep interval id => exact formatHello_alike id
  | singleEcapRep det => exact epfEcapRep_alike det
  | singleEcapRepFail => exact @epfEcapRep_alike host host' p s none
  | triggerUerepReq op => exact epfUerepReq_alike
  | triggerUerepRep nofUes maxUes ues => exact uerepFill_alike _ ues _ _ _ _
  | triggerUerepRepFail => exact @uerepFill_alike host host' _ none _ _ _ _
  | triggerUemeasReq op meas => exact epfUemeasReq_alike meas
  | triggerUemeasRep rep =>
    cases rep with
    | none => exact .refl _
    | some rep => exact formatRrcs_alike (putRrcReport_alike rep.entry) rep p s
  | schedCellMeasReq _ | triggerCellMeasReq => exact epfCellMeasReq_alike
  | schedCellMeasRep interval info | triggerCellMeasRep info =>
    cases info with
    | none => exact .refl _
    | some info => exact @epfCellMeasRep_alike host host' p s info
  | singleHoReq rnti enb pci cause => exact epfHoReq_alike rnti enb pci cause
  | singleHoRep enb pci origin target | singleHoRepFail enb pci origin target
  | singleHoRepNs enb pci origin target => exact epfHoRep_alike enb pci origin target
  | singleRanRepFail type sliceId => exact .ite (.refl _) (.put (.refl _))
  | singleRanSetupRep det =>
    cases det with
    | none => exact .refl _
    | some det => exact epfRanEup_alike det
  | singleRanSliceReq sliceId | singleRanSliceRem sliceId => exact formatSliceId_alike sliceId
  | singleRanSliceRep sliceId det => exact epfRanSup_alike sliceId det
  | singleRanSliceAdd sliceId det | singleRanSliceSet sliceId det =>
    exact formatSlice_alike sliceId det
  | _ => exact .refl _

theorem event_alike (msg : Message) (host host' : ByteOrder) (p : Nat) (s : UInt32) :
    Alike (msg.event host p s) (msg.event host' p s) := by
  unfold event
  cases msg.type with
  | schedule => exact .ite (.refl _) <| .put <| .putByte <| .put <| .refl _
  | _ => exact .ite (.refl _) <| .put <| .putByte <| .refl _

end Message

/-- On every host the code ends with the same value: it stores the main header in the order of the
host, and behind it what is the same on all hosts. -/
def Headed (c : ByteOrder → Code Int) (b : Nat) (head : ByteOrder → List UInt8) : Prop :=
  ∃ n vs, (∀ w ∈ vs, b + 22 ≤ w.1) ∧ ∀ host, Emits (c host) n (chunk b (head host) ++ vs)

section Format
variable {b : Nat} {size : UInt32} {ids : EpHdrId}

theorem formatMessage_headed {type : EpMsgType} {dir : EpHdrFlagDir}
    {event body : ByteOrder → Nat → UInt32 → Code Int} {ev : List UInt8} {whole : Bool}
    (room : 24 ≤ size.toNat) (small : ev.length ≤ 7)
    (hevent : ∀ p s,
      Emits (event .big p s) ev.length (chunk p ev) ∨ Emits (event .big p s) (-1) [])
    (hbody : ∀ p s, FillsBody whole (body .big p s) p)
    (events : ∀ host p s, Alike (event .big p s) (event host p s))
    (bodies : ∀ host p s, Alike (body .big p s) (body host p s)) :
    Headed (fun host => formatMessage host (some b) size type ids dir (event host) (body host)) b
      fun host => headBytes host type.code ids dir.flag := by
  have inEvent : ∀ w ∈ chunk (b + 24) ev, b + 22 ≤ w.1 := fun w hw => by
    have := chunk_bounds hw
    omega
  rcases hevent (b + 24) (size - UInt32.ofNat 24) with taken | refused
  · obtain ⟨r, ws, emits, int, stores⟩ := hbody (b + (24 + ev.length))
      (size - UInt32.ofNat (24 + ev.length))
    have inBody : ∀ w ∈ ws, b + 22 ≤ w.1 := fun w hw => by
      have := stores.behind w hw
      omega
    have event (host : ByteOrder) := (events host _ _).emits taken
    have body (host : ByteOrder) := (bodies host _ _).emits emits
    by_cases neg : r < 0
    · refine ⟨r, chunk (b + 24) ev ++ ws, List.forall_mem_append.mpr ⟨inEvent, inBody⟩,
        fun host => ?_⟩
      exact formatMessage_body_fails ev.length room (event host) (by omega) (body host) neg
    · obtain ⟨n, rfl⟩ : ∃ n : Nat, r = n := ⟨r.toNat, by omega⟩
      refine ⟨_, _, ?_, fun host =>
        formatMessage_sum ev.length n room (event host) (by omega) (body host)⟩
      refine List.forall_mem_append.mpr ⟨inEvent, List.forall_mem_append.mpr ⟨inBody, ?_⟩⟩
      exact fun w hw => (wordChunk_bounds hw).1
  · refine ⟨-1, [], by simp, fun host => ?_⟩
    exact formatMessage_event_fails room ((events host _ _).emits refused) (by decide)

theorem epfSchedHelloRep_headed (room : 24 ≤ size.toNat) (interval id : UInt32) :
    Headed (fun host => epfSchedHelloRep host (some b) size ids interval id) b
      fun host => headBytes host EpMsgType.schedule.code ids EpHdrFlagDir.rep.flag := by
  by_cases short : size.toNat < 55
  · have space : (size - UInt32.ofNat 24).toNat = size.toNat - 24 := uint32_sub_toNat room
    refine ⟨-1, [], by simp, fun host => ?_⟩
    simp only [epfSchedHelloRep]
    exact head_part room (part_fails 24 (epfSchedule_short (by omega)) (by decide))
  · refine ⟨31, chunk (b + 24) (scheduleBytes .big EpActType.hello.code EpOpType.success.code
        interval) ++ (chunk (b + 31) (Word.bytes .big id) ++
          chunk (b + 22) (Word.bytes .big (UInt16.ofInt 31))), fun w hw => ?_, fun host => ?_⟩
    · simp only [List.mem_append] at hw
      rcases hw with hw | hw | hw <;> have := (chunk_bounds hw).1 <;> omega
    · have event : scheduleBytes host EpActType.hello.code EpOpType.success.code interval =
          scheduleBytes .big EpActType.hello.code EpOpType.success.code interval :=
        Message.eventBytes_host host (.schedHelloRep interval id)
      rw [← event]
      exact epfSchedHelloRep_emits host b ids interval id (Nat.le_of_not_lt short)

namespace Message

theorem format_headed (msg : Message) (room : 24 ≤ size.toNat) (given : msg.refused = false)
    (sound : msg.nullBody = false ∨ size.toNat < 27) :
    Headed (fun host => msg.format host (some b) size ids) b
      fun host => headBytes host msg.type.code ids msg.dir.flag := by
  by_cases null : msg.nullBody = true
  · have short : size.toNat < 27 := sound.resolve_left (by simp [null])
    have space : (size - UInt32.ofNat 24).toNat = size.toNat - 24 := uint32_sub_toNat room
    simp only [nullBody_format msg null]
    exact ⟨-1, [], by simp, fun host =>
      formatMessage_event_fails room (eventHeader_short (by omega)) (by decide)⟩
  rw [Bool.not_eq_true] at null
  rcases msg.common_or with common | ⟨interval, id, rfl⟩
  · simp only [format_eq msg common, given, Bool.false_eq_true, if_false]
    exact formatMessage_headed room (msg.eventBytes_bounds .big).2 msg.event_outcome
      (msg.body_fills null given) (msg.event_alike .big) (msg.body_alike .big · size)
  · exact epfSchedHelloRep_headed room interval id

theorem format_silent (msg : Message) (silent : msg.refused = true ∨ size.toNat < 24)
    (host : ByteOrder) : Emits (msg.format host (some b) size ids) (-1) [] := by
  rcases msg.common_or with common | ⟨interval, id, rfl⟩
  · rw [format_eq msg common]
    split
    · exact .pure _
    · exact formatMessage_short (silent.resolve_left ‹_›)
  · rw [format, epfSchedHelloRep]
    exact head_part_short (silent.resolve_left Bool.false_ne_true)

end Message

/-- Only the flags of two messages with the header in different orders may differ. -/
theorem headBytes_portable_iff (m : Mem) (type : UInt32) (dir : EpHdrFlagDir)
    {vs : List (Nat × UInt8)} (behind : ∀ w ∈ vs, b + 22 ≤ w.1) :
    (∀ a, a ≠ b + 16 → a ≠ b + 17 →
      m.patch (chunk b (headBytes .little type ids dir.flag) ++ vs) a =
        m.patch (chunk b (headBytes .big type ids dir.flag) ++ vs) a) ∧
    (m.patch (chunk b (headBytes .little type ids dir.flag) ++ vs) =
        m.patch (chunk b (headBytes .big type ids dir.flag) ++ vs) ↔ dir = .req) := by
  have split (host : ByteOrder) : m.patch (chunk b (headBytes host type ids dir.flag) ++ vs) =
      ((m.patch (chunk b (headFront type ids))).patch
        (chunk (b + 16) (Word.bytes host dir.flag))).patch vs := by
    rw [headBytes_front, chunk_append, headFront_length, Mem.patch_append, Mem.patch_append]
  rw [split, split]
  constructor
  · intro a first second
    have apart (host : ByteOrder) : ∀ w ∈ chunk (b + 16) (Word.bytes host dir.flag), w.1 ≠ a := by
      intro w hw
      have := wordChunk_bounds hw
      simp only [Word.width] at this
      omega
    refine Mem.patch_congr vs ?_
    rw [Mem.patch_frame _ (apart .little), Mem.patch_frame _ (apart .big)]
  · cases dir with
    | req => exact iff_of_true (by rw [reqFlag_bytes .little .big]) rfl
    | rep =>
      refine iff_of_false (fun same => ?_) nofun
      have flags (host : ByteOrder) : (((m.patch (chunk b (headFront type ids))).patch
          (chunk (b + 16) (Word.bytes host EpHdrFlagDir.rep.flag))).patch vs).Holds (b + 16)
          (Word.bytes host EpHdrFlagDir.rep.flag) := by
        refine (Mem.holds_patch_chunk _ _ _).patch fun w hw => .inr ?_
        have := behind w hw
        simp only [Word.bytes_length, Word.width]
        omega
      have bytes := flags .little
      rw [same] at bytes
      exact absurd (bytes.symm.trans (flags .big)) (by decide)

end Format

/-- The same call on a little-endian and on a big-endian host: both dereference the details that
are missing, or both return the same number and leave the same memory, but for the two bytes of
the flags. These too are the same exactly if the message is a request or no header is written. -/
theorem Message.format_portable_iff (msg : Message) (b : Nat) (size : UInt32) (ids : EpHdrId)
    (m : Mem) :
    (msg.nullBody = true ∧ 27 ≤ size.toNat ∧
      ∀ host, (msg.format host (some b) size ids).run m = none) ∨
    ∃ n t t', (msg.format .little (some b) size ids).run m = some (n, t) ∧
      (msg.format .big (some b) size ids).run m = some (n, t') ∧
      (∀ a, a ≠ b + 16 → a ≠ b + 17 → m.patch t.stores a = m.patch t'.stores a) ∧
      (m.patch t.stores = m.patch t'.stores ↔
        msg.dir = .req ∨ msg.refused = true ∨ size.toNat < 24) := by
  by_cases crashes : msg.nullBody = true ∧ 27 ≤ size.toNat
  · exact .inl ⟨crashes.1, crashes.2, fun host => msg.crashes crashes.1 host b crashes.2 ids m⟩
  have sound := msg.sound_of_not_crashes crashes
  right
  by_cases silent : msg.refused = true ∨ size.toNat < 24
  · obtain ⟨t, hrun, stores⟩ := msg.format_silent silent .little m
    obtain ⟨t', hrun', stores'⟩ := msg.format_silent silent .big m
    exact ⟨-1, t, t', hrun, hrun', fun _ _ _ => by rw [stores, stores'],
      iff_of_true (by rw [stores, stores']) (.inr silent)⟩
  · have given : msg.refused = false ∧ 24 ≤ size.toNat := by
      rwa [not_or, Bool.not_eq_true, Nat.not_lt] at silent
    obtain ⟨n, vs, behind, emits⟩ := msg.format_headed given.2 given.1 sound
    obtain ⟨t, hrun, stores⟩ := emits .little m
    obtain ⟨t', hrun', stores'⟩ := emits .big m
    obtain ⟨others, flags⟩ := headBytes_portable_iff m msg.type.code msg.dir behind
    refine ⟨n, t, t', hrun, hrun', ?_, ?_⟩
    · rw [stores, stores']
      exact others
    · rw [stores, stores', or_iff_left silent]
      exact flags

end Emproto
