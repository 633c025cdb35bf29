import Emproto.Confinement
import Emproto.CellReports
import Emproto.HeaderRegisters

/-! The bytes of a message. What a formatter does to the memory is said by one list of bytes, made
of the arguments alone but for the intervals of a measurement request, which are what the memory
had there. -/

namespace Emproto

/-! Stores that come to the same. -/

/-- The stores leave `bs` at `p` in every memory that agrees with `m` from there on. -/
structure LaysOver (m : Mem) (ws : List (Nat × UInt8)) (p : Nat) (bs : List UInt8) : Prop where
  holds : ∀ m' : Mem, (∀ a, p ≤ a → m' a = m a) → (m'.patch ws).Holds p bs
  within : ∀ w ∈ ws, p ≤ w.1 ∧ w.1 < p + bs.length

theorem Lays.over {ws : List (Nat × UInt8)} {p : Nat} {bs : List UInt8} (h : Lays ws p bs)
    (m : Mem) : LaysOver m ws p bs := ⟨fun m' _ => h.holds m', h.within⟩

namespace LaysOver
variable {m : Mem} {vs ws : List (Nat × UInt8)} {p : Nat} {bs xs ys : List UInt8}

theorem within_append (hx : ∀ w ∈ vs, p ≤ w.1 ∧ w.1 < p + xs.length)
    (hy : ∀ w ∈ ws, p + xs.length ≤ w.1 ∧ w.1 < p + xs.length + ys.length) :
    ∀ w ∈ vs ++ ws, p ≤ w.1 ∧ w.1 < p + (xs ++ ys).length := by
  intro w hw
  rw [List.length_append]
  rcases List.mem_append.mp hw with hw | hw
  · have := hx w hw
    omega
  · have := hy w hw
    omega

theorem append (hx : Lays vs p xs) (hy : LaysOver m ws (p + xs.length) ys) :
    LaysOver m (vs ++ ws) p (xs ++ ys) where
  holds m' same := by
    rw [Mem.patch_append, Mem.holds_append]
    refine ⟨(hx.holds m').patch fun w hw => .inr (hy.within w hw).1, hy.holds _ fun a ha => ?_⟩
    rw [Mem.patch_frame m' fun w hw => ?_, same a (by omega)]
    have := hx.within w hw
    omega
  within := within_append hx.within hy.within

theorem prepend (hx : Lays vs p xs) (hy : LaysOver m ws (p + xs.length) ys) :
    LaysOver m (ws ++ vs) p (xs ++ ys) where
  holds m' same := by
    rw [Mem.patch_append, Mem.holds_append]
    exact ⟨hx.holds _,
      (hy.holds m' fun a ha => same a (by omega)).patch fun w hw => .inl (hx.within w hw).2⟩
  within w hw := within_append hx.within hy.within w
    (List.mem_append.mpr (List.mem_append.mp hw).symm)

theorem patch_eq (hv : LaysOver m vs p bs) (hw : LaysOver m ws p bs) {m' : Mem}
    (same : ∀ a, p ≤ a → m' a = m a) : m'.patch vs = m'.patch ws := by
  funext a
  by_cases inside : p ≤ a ∧ a < p + bs.length
  · have same := (hv.holds m' same).same (hw.holds m' same) (i := a - p) (by omega)
    rwa [show p + (a - p) = a by omega] at same
  · rw [Mem.patch_frame m' fun w hw' => ?_, Mem.patch_frame m' fun w hw' => ?_]
    · have := hw.within w hw'
      omega
    · have := hv.within w hw'
      omega

end LaysOver

/-! Bodies. -/

/-- The cells and the RAN capabilities that a message has room for. -/
def EpEnbDet.clipped (det : EpEnbDet) : EpEnbDet :=
  { det with
    nofCells := if det.nofCells ≤ epEcapCellMax then det.nofCells else epEcapCellMax
    nofRan := if det.nofRan ≤ epEcapCellMax then det.nofRan else epEcapCellMax }

def EpUeMeas.clipped (meas : EpUeMeas) : EpUeMeas :=
  { meas with count := if meas.count ≤ epUeRrcMeasMax then meas.count else epUeRrcMeasMax }

def cellPrbReqBytes : List UInt8 :=
  Word.bytes .big EpTLVType.cellPrbReq.code ++ Word.bytes .big (0 : UInt16)

/-- There is no body for a slice with more users than it can hold. -/
def slicePayload (sliceId : UInt64) (det : Option EpRanSliceDet) : Option (List UInt8) :=
  det.bind fun det =>
    if h : det.nofUsers.toNat ≤ 32 then some (Word.bytes .big sliceId ++ encode (sliceTokens det h))
    else none

namespace Message

/-- The body on the wire, for arguments that make one, if it begins at `p` and the memory was
`before`: the intervals of a measurement request are what was there. -/
def payload (before : Mem) (p : Nat) : Message → Option (List UInt8)
  | singleHelloReq id => some (Word.bytes .big id)
  | singleHelloRep id => some (Word.bytes .big id)
  | schedHelloReq _ id => some (Word.bytes .big id)
  | schedHelloRep _ id => some (Word.bytes .big id)
  | singleEcapRep det => det.map fun det => encode (capTokens det.clipped)
  | singleEcapRepFail => none
  | triggerUerepReq _ => some [0]
  | triggerUerepRep nofUes maxUes (some ues) =>
    some (encode ((reported nofUes maxUes ues).map ueToken))
  | triggerUerepRep nofUes _ none => if nofUes = 0 then some [] else none
  | triggerUemeasReq _ meas => meas.map fun meas => encode (requestTokens before p meas.clipped)
  | triggerUemeasRep rep => rep.map fun rep => encode (rep.carried.list.map rrcReportToken)
  | schedCellMeasReq _ => some cellPrbReqBytes
  | schedCellMeasRep _ info => info.map fun info => encode info.tokens
  | triggerCellMeasReq => some cellPrbReqBytes
  | triggerCellMeasRep info => info.map fun info => encode info.tokens
  | singleHoReq rnti enb pci cause => some (hoReqBytes rnti enb pci cause)
  | singleHoRep enb pci origin target => some (hoRepBytes enb pci origin target)
  | singleHoRepFail enb pci origin target => some (hoRepBytes enb pci origin target)
  | singleHoRepNs enb pci origin target => some (hoRepBytes enb pci origin target)
  | singleRanRepFail _ sliceId => some (Word.bytes .big sliceId)
  | singleRanSetupRep det =>
    det.map fun det => setupBytes det ++ encode (macSchedTokens det.sliceSched)
  | singleRanSliceReq sliceId => some (Word.bytes .big sliceId)
  | singleRanSliceRem sliceId => some (Word.bytes .big sliceId)
  | singleRanSliceRep sliceId det => slicePayload sliceId det
  | singleRanSliceAdd sliceId det => slicePayload sliceId det
  | singleRanSliceSet sliceId det => slicePayload sliceId det
  | _ => some []

def headers (msg : Message) : Nat :=
  match msg.type with
  | .schedule => 31
  | _ => 27

/-- The length that is returned, of which the low 16 bits are announced. The scheduled hello
reply leaves its body out. -/
def counted (msg : Message) (bs : List UInt8) : Nat :=
  match msg with
  | schedHelloRep _ _ => 31
  | _ => msg.headers + bs.length

def needs (msg : Message) (bs : List UInt8) : Nat :=
  max (msg.headers + bs.length) (if msg.type = .schedule then 55 else 0)

/-- The message on the wire, with the sequence number left out. -/
def image (host : ByteOrder) (b : Nat) (ids : EpHdrId) (msg : Message) (bs : List UInt8) :
    List (Nat × UInt8) :=
  chunk b (headBytes host msg.type.code ids msg.dir.flag) ++
    chunk (b + 22) (Word.bytes .big (UInt16.ofInt (msg.counted bs)) ++
      (msg.eventBytes host ++ bs))

end Message

section Bodies
variable {host : ByteOrder} {p : Nat} {size : UInt32}

theorem UInt32.ite_le_toNat (n cap : UInt32) :
    (if n ≤ cap then n else cap).toNat = min n.toNat cap.toNat := by
  split
  · exact (Nat.min_eq_left (UInt32.le_iff_toNat_le.mp ‹n ≤ cap›)).symm
  · have := UInt32.le_iff_toNat_le.not.mp ‹¬ n ≤ cap›
    exact (Nat.min_eq_right (by omega)).symm

theorem epfEcapRep_clipped (det : EpEnbDet) :
    epfEcapRep host (some det) p size = epfEcapRep host (some det.clipped) p size := by
  simp only [epfEcapRep, EpEnbDet.clipped, UInt32.ite_le_toNat, Nat.min_assoc, Nat.min_self]

theorem EpEnbDet.clipped_bounds (det : EpEnbDet) :
    det.clipped.nofCells ≤ epEcapCellMax ∧ det.clipped.nofRan ≤ epEcapCellMax := by
  rw [UInt32.le_iff_toNat_le, UInt32.le_iff_toNat_le]
  simp only [clipped, UInt32.ite_le_toNat]
  exact ⟨Nat.min_le_right .., Nat.min_le_right ..⟩

theorem epfUerepReq_emits (h : 1 ≤ size.toNat) :
    Emits (epfUerepReq host p size) 1 (chunk p [0]) := by
  rw [epfUerepReq, if_neg (by omega)]
  exact Emits.of_eq (Emits.store.bind <| .pure _) (by simp [bytes_uint8])

theorem EpUeReport.carried_list (rep : EpUeReport) :
    rep.carried.list =
      (List.range (min rep.count.toNat epUeRrcMeasMax.toNat)).map rep.entry := by
  have small : min rep.count.toNat epUeRrcMeasMax.toNat ≤ 8 := Nat.min_le_right _ 8
  have count : rep.carried.count.toNat = min rep.count.toNat epUeRrcMeasMax.toNat :=
    uint32_toNat_ofNat (by omega)
  rw [CountedArray.list, count]
  exact List.map_congr_left fun i hi => if_pos (List.mem_range.mp hi)

theorem EpUeMeas.clipped_count (meas : EpUeMeas) :
    meas.clipped.count.toNat = min meas.count.toNat epUeRrcMeasMax.toNat :=
  UInt32.ite_le_toNat ..

theorem EpUeMeas.clipped_le (meas : EpUeMeas) : meas.clipped.count.toNat ≤ 8 :=
  meas.clipped_count ▸ Nat.min_le_right _ 8

def Writes (m : Mem) (c : Code Int) (p : Nat) (bs : List UInt8) : Prop :=
  ∃ ws, Emits c (bs.length : Int) ws ∧ LaysOver m ws p bs

theorem Emits.writes {c : Code Int} {bs : List UInt8} (emits : Emits c bs.length (chunk p bs))
    (m : Mem) : Writes m c p bs := ⟨_, emits, (Lays.chunk p bs).over m⟩

theorem epfUemeasRep_writes (m : Mem) (rep : EpUeReport)
    (fits : (encode (rep.carried.list.map rrcReportToken)).length ≤ size.toNat) :
    Writes m (epfUemeasRep host rep p size) p (encode (rep.carried.list.map rrcReportToken)) := by
  have length := encode_length_const rrcReportToken_length rep.carried.list
  rw [Writes, length]
  rw [length] at fits
  rw [rep.carried_list, List.length_map, List.length_range] at length fits ⊢
  obtain ⟨ws, emits, within, held⟩ :
      ∃ ws, Emits (epfUemeasRep host rep p size) (12 * _ : Nat) ws ∧ _ :=
    formatRrcs_leaves (fun _ i _ => rrcReportToken (rep.entry i)) (putRrcReport_leaves rep.entry)
      (fun _ i _ => rrcReportToken_length (rep.entry i)) (fun _ _ _ _ _ => rfl) rep rfl (by decide)
      fits
  refine ⟨ws, emits, fun m' _ => ?_, ?_⟩
  · rw [List.map_map]
    exact held m'
  · rwa [length]

/-- The intervals on the wire are those of the memory that is written over. -/
theorem epfUemeasReq_writes (m : Mem) (meas : EpUeMeas)
    (fits : (encode (requestTokens m p meas.clipped)).length ≤ size.toNat) :
    Writes m (epfUemeasReq host (some meas) p size) p
      (encode (requestTokens m p meas.clipped)) := by
  have length : (encode (requestTokens m p meas.clipped)).length =
      16 * meas.clipped.count.toNat := by
    rw [requestTokens, encode_length_const rrcMeasToken_length, List.length_map, List.length_range]
  have word (m m' : Mem) (c : Nat) (same : ∀ a, c ≤ a → m a = m' a) :
      (m.be (c + 10) : UInt16) = m'.be (c + 10) :=
    congrArg (Word.ofBytes .big) (Mem.slice_congr fun i _ => same (c + 10 + i) (by omega))
  rw [Writes, length]
  rw [length] at fits
  obtain ⟨ws, emits, within, held⟩ :
      ∃ ws, Emits (epfUemeasReq host (some meas) p size) (16 * meas.clipped.count.toNat : Nat) ws ∧
        _ :=
    formatRrcs_leaves (fun m i c => rrcMeasToken ((meas.entry i).sent m c))
      (putRrcMeas_leaves meas.entry) (fun _ _ _ => rrcMeasToken_length _)
      (fun m m' i c same => by rw [EpUeRRCMeas.sent, EpUeRRCMeas.sent, word m m' c same])
      meas meas.clipped_count.symm (by decide) fits
  refine ⟨ws, emits, fun m' same => ?_, by rwa [length]⟩
  have tokens : requestTokens m' p meas.clipped = requestTokens m p meas.clipped := by
    rw [requestTokens, requestTokens]
    refine congrArg (List.map rrcMeasToken) (List.map_congr_left fun i _ => ?_)
    rw [EpUeRRCMeas.sent, EpUeRRCMeas.sent, word m' m _ fun a ha => same a (by omega)]
  rw [← tokens, requestTokens, List.map_map]
  exact held m'

end Bodies

namespace Message
variable {host : ByteOrder} {b : Nat} {size : UInt32} {ids : EpHdrId} {bs : List UInt8} {m : Mem}

theorem headers_eq (host : ByteOrder) (msg : Message) :
    24 + (msg.eventBytes host).length = msg.headers := by
  unfold eventBytes headers
  cases msg.type with
  | schedule => exact congrArg (24 + ·) (scheduleBytes_length ..)
  | _ => exact congrArg (24 + ·) (eventBytes_length ..)

theorem event_emits (msg : Message) (room : msg.needs bs ≤ size.toNat) :
    Emits (msg.event host (b + 24) (size - UInt32.ofNat 24)) (msg.eventBytes host).length
      (chunk (b + 24) (msg.eventBytes host)) := by
  have long : msg.headers ≤ size.toNat :=
    Nat.le_trans (Nat.le_add_right _ _) (Nat.le_trans (Nat.le_max_left ..) room)
  have space : (size - UInt32.ofNat 24).toNat = size.toNat - 24 :=
    uint32_sub_toNat (by have := msg.headers_eq host; omega)
  have sched := Nat.le_trans (Nat.le_max_right (msg.headers + bs.length) _) room
  unfold event eventBytes
  unfold headers at long
  cases type : msg.type with
  | schedule =>
    rw [if_pos type] at sched
    rw [scheduleBytes_length]
    exact epfSchedule_emits (by omega)
  | _ =>
    simp only [type] at long
    rw [eventBytes_length]
    exact eventHeader_emits (by omega)

section Body
variable {k p : Nat}

theorem slicePayload_writes (kind : SliceMsg) {sliceId : UInt64} {det : Option EpRanSliceDet}
    (payload : slicePayload sliceId det = some bs) (room : k + bs.length ≤ size.toNat) :
    Writes m (kind.body host sliceId det p (size - UInt32.ofNat k)) p bs := by
  have space : (size - UInt32.ofNat k).toNat = size.toNat - k := uint32_sub_toNat (by omega)
  obtain ⟨det, rfl, body⟩ := Option.bind_eq_some_iff.mp payload
  by_cases few : det.nofUsers.toNat ≤ 32
  · rw [dif_pos few] at body
    cases body
    rw [List.length_append, Word.bytes_length] at room
    change k + (8 + _) ≤ _ at room
    have rest : (size - UInt32.ofNat k - UInt32.ofNat 8).toNat = size.toNat - k - 8 := by
      rw [uint32_sub_toNat (by omega), space]
    obtain ⟨ws, emits, lays⟩ := kind.body_emits host sliceId p (size - UInt32.ofNat k) few
      (.inr (by omega)) (by omega)
    refine ⟨ws, ?_, lays.over m⟩
    rwa [List.length_append, Word.bytes_length]
  · rw [dif_neg few] at body
    cases body

theorem body_writes (msg : Message) (payload : msg.payload m p = some bs) (single : 27 ≤ k)
    (room : k + bs.length ≤ size.toNat) (bound : bs.length < 2147483648) :
    Writes m (msg.body host size p (size - UInt32.ofNat k)) p bs := by
  have space : (size - UInt32.ofNat k).toNat = size.toNat - k := uint32_sub_toNat (by omega)
  have empty : Writes m (pure 0) p [] := ⟨[], .pure 0, (Lays.chunk p []).over m⟩
  have fits : bs.length ≤ (size - UInt32.ofNat k).toNat := by omega
  cases msg with
  | singleHelloReq id | singleHelloRep id | schedHelloReq interval id
  | schedHelloRep interval id =>
    cases payload
    exact (formatHello_emits fits).writes m
  | singleEcapRep det =>
    obtain ⟨det, rfl, rfl⟩ := Option.map_eq_some_iff.mp payload
    have few := det.clipped_bounds
    rw [body, epfEcapRep_clipped]
    exact (epfEcapRep_emits host p few.1 few.2 fits).writes m
  | singleEcapRepFail => cases payload
  | triggerUerepReq op =>
    cases payload
    exact (epfUerepReq_emits fits).writes m
  | triggerUerepRep nofUes maxUes ues =>
    cases ues with
    | none =>
      obtain ⟨rfl, same⟩ := Option.ite_none_right_eq_some.mp payload
      cases same
      rw [body, epfUerepRep, show min (0 : UInt32).toNat maxUes.toNat = 0 from Nat.zero_min _]
      exact empty
    | some ues =>
      cases payload
      rw [encode_ueTokens_length] at fits bound
      have small : 0 + 23 * (reported nofUes maxUes ues).length < 2147483648 := by omega
      have fill : Emits (epfUerepRep host nofUes maxUes (some ues) p (size - UInt32.ofNat k))
          ((0 + 23 * (reported nofUes maxUes ues).length : Nat) : Int)
          (chunk p (encode ((reported nofUes maxUes ues).map ueToken))) :=
        uerepFill_emits (Nat.add_le_add_left fits p) small
      rw [Nat.zero_add, ← encode_ueTokens_length] at fill
      exact fill.writes m
  | triggerUerepRepFail =>
    cases payload
    exact empty
  | triggerUemeasReq op meas =>
    obtain ⟨meas, rfl, rfl⟩ := Option.map_eq_some_iff.mp payload
    exact epfUemeasReq_writes m meas fits
  | triggerUemeasRep rep =>
    obtain ⟨rep, rfl, rfl⟩ := Option.map_eq_some_iff.mp payload
    exact epfUemeasRep_writes m rep fits
  | schedCellMeasReq interval =>
    cases payload
    exact (epfCellMeasReq_emits fits).writes m
  | schedCellMeasRep interval info =>
    obtain ⟨info, rfl, rfl⟩ := Option.map_eq_some_iff.mp payload
    exact (epfCellMeasRep_tokens (size - UInt32.ofNat k) info).writes m
  | triggerCellMeasReq =>
    cases payload
    exact (epfCellMeasReq_emits fits).writes m
  | triggerCellMeasRep info =>
    obtain ⟨info, rfl, rfl⟩ := Option.map_eq_some_iff.mp payload
    exact (epfCellMeasRep_tokens (size - UInt32.ofNat k) info).writes m
  | singleHoReq rnti enb pci cause =>
    cases payload
    exact (epfHoReq_emits fits).writes m
  | singleHoRep enb pci origin target | singleHoRepFail enb pci origin target
  | singleHoRepNs enb pci origin target =>
    cases payload
    exact (epfHoRep_emits fits).writes m
  | singleRanRepFail type sliceId =>
    cases payload
    have long : ¬ 24 + 3 + 8 > size.toNat := by
      rw [Word.bytes_length] at room
      change k + 8 ≤ _ at room
      omega
    simp only [body, long, if_false]
    refine ⟨_, Emits.store.bind (.pure 8), ?_⟩
    simpa using (Lays.chunk p (Word.bytes .big sliceId)).over m
  | singleRanSetupRep det =>
    obtain ⟨det, rfl, rfl⟩ := Option.map_eq_some_iff.mp payload
    rw [List.length_append, setupBytes_length] at fits
    refine Emits.writes ?_ m
    rw [List.length_append, setupBytes_length]
    exact epfRanEup_emits fits
  | singleRanSliceReq sliceId | singleRanSliceRem sliceId =>
    cases payload
    exact (formatSliceId_emits fits).writes m
  | singleRanSliceRep sliceId det =>
    exact slicePayload_writes .rep payload (by omega)
  | singleRanSliceAdd sliceId det =>
    exact slicePayload_writes .add payload (by omega)
  | singleRanSliceSet sliceId det =>
    exact slicePayload_writes .set payload (by omega)
  | _ =>
    cases payload
    exact empty

end Body

theorem image_stores {msg : Message} {ws : List (Nat × UInt8)}
    (lays : LaysOver m ws (b + msg.headers) bs) :
    m.patch (chunk b (headBytes host msg.type.code ids msg.dir.flag) ++
        (chunk (b + 24) (msg.eventBytes host) ++
          (ws ++ chunk (b + 22) (Word.bytes .big (UInt16.ofInt (msg.counted bs)))))) =
      m.patch (msg.image host b ids bs) := by
  have behind : LaysOver m (chunk (b + 24) (msg.eventBytes host) ++ ws) (b + 24)
      (msg.eventBytes host ++ bs) :=
    .append (.chunk _ _) (by rwa [Nat.add_assoc, msg.headers_eq])
  have all := behind.prepend (.chunk (b + 22) (Word.bytes .big (UInt16.ofInt (msg.counted bs))))
  rw [image, Mem.patch_append m (chunk b _), Mem.patch_append m (chunk b _), ← List.append_assoc]
  refine all.patch_eq ((Lays.chunk _ _).over m) fun a ha => Mem.patch_frame m fun w hw => ?_
  have := headChunk_bounds hw
  omega

theorem given_of_payload {msg : Message} {p : Nat} (payload : msg.payload m p = some bs) :
    msg.refused = false := by
  cases msg with
  | triggerUerepRep nofUes maxUes ues =>
    cases ues with
    | none =>
      obtain ⟨rfl, -⟩ := Option.ite_none_right_eq_some.mp payload
      rfl
    | some ues => exact Bool.and_false _
  | triggerUemeasRep rep =>
    obtain ⟨rep, rfl, -⟩ := Option.map_eq_some_iff.mp payload
    rfl
  | schedCellMeasRep interval info | triggerCellMeasRep info =>
    obtain ⟨info, rfl, -⟩ := Option.map_eq_some_iff.mp payload
    rfl
  | singleRanSetupRep det =>
    obtain ⟨det, rfl, -⟩ := Option.map_eq_some_iff.mp payload
    rfl
  | singleRanSliceRep sliceId det | singleRanSliceAdd sliceId det =>
    obtain ⟨det, rfl, -⟩ := Option.bind_eq_some_iff.mp payload
    rfl
  | _ => rfl

theorem format_images {msg : Message} (payload : msg.payload m (b + msg.headers) = some bs)
    (host : ByteOrder) (ids : EpHdrId) (room : msg.needs bs ≤ size.toNat)
    (bound : msg.headers + bs.length < 2147483648) :
    ∃ ws, Emits (msg.format host (some b) size ids) (msg.counted bs : Int) ws ∧
      m.patch ws = m.patch (msg.image host b ids bs) := by
  have long : msg.headers + bs.length ≤ size.toNat := Nat.le_trans (Nat.le_max_left ..) room
  rcases msg.common_or with common | ⟨interval, id, rfl⟩
  · have headers := msg.headers_eq host
    have single := (msg.eventBytes_bounds host).1
    have counted : msg.counted bs = msg.headers + bs.length := by
      cases msg with
      | schedHelloRep interval id => exact absurd rfl (common interval id)
      | _ => rfl
    obtain ⟨ws, body, lays⟩ : Writes m (msg.body host size (b + msg.headers) _) _ bs :=
      msg.body_writes payload (by omega) long (by omega)
    rw [← headers] at body
    have emits : Emits (formatMessage host (some b) size msg.type ids msg.dir (msg.event host)
        (msg.body host size)) ((24 + (msg.eventBytes host).length + bs.length : Nat) : Int) _ :=
      formatMessage_emits _ _ (by omega) (msg.event_emits room) body (by omega)
    refine ⟨_, ?_, image_stores lays⟩
    rw [format_eq msg common, given_of_payload payload, if_neg Bool.false_ne_true, counted,
      ← headers]
    exact emits
  · cases payload
    have room : 55 ≤ size.toNat := Nat.le_trans (Nat.le_max_right ..) room
    have lays : Lays (chunk (b + 31) (Word.bytes .big id))
        (b + (schedHelloRep interval id).headers) (Word.bytes .big id) := .chunk _ _
    have counted : ((schedHelloRep interval id).counted (Word.bytes .big id) : Int) = 31 := rfl
    refine ⟨_, ?_, image_stores (lays.over m)⟩
    rw [counted]
    exact epfSchedHelloRep_emits host b ids interval id room

end Message

/-- What a formatter does to the memory: with room for the message, and a length that is an `int`,
it returns the length of the message, that of the scheduled hello reply without its body, and
afterwards the memory is what it was, with the image of the message written over it. -/
theorem Message.format_image {msg : Message} {bs : List UInt8} {m : Mem} {b : Nat}
    (payload : msg.payload m (b + msg.headers) = some bs) (host : ByteOrder) {size : UInt32}
    (ids : EpHdrId) (room : msg.needs bs ≤ size.toNat)
    (bound : msg.headers + bs.length < 2147483648) :
    ∃ t, (msg.format host (some b) size ids).run m = some ((msg.counted bs : Int), t) ∧
      m.patch t.stores = m.patch (msg.image host b ids bs) := by
  obtain ⟨ws, emits, image⟩ := format_images payload host ids room bound
  obtain ⟨t, hrun, rfl⟩ := emits m
  exact ⟨t, hrun, image⟩

def oneReport : EpUeReport := ⟨fun i => ⟨UInt16.ofNat i, 4, 50, 20⟩, 1⟩

theorem Message.format_image_report :
    ∃ t, ((triggerUemeasRep (some oneReport)).format .little (some 8) 64 ⟨1, 2, 3⟩).run
        (fun _ => 0xff) = some (39, t) ∧
      Mem.patch (fun _ => 0xff) t.stores = Mem.patch (fun _ => 0xff)
        ((triggerUemeasRep (some oneReport)).image .little 8 ⟨1, 2, 3⟩
          [6, 1, 0, 8, 0, 0, 0, 4, 0, 50, 0, 20]) := by
  have payload : (triggerUemeasRep (some oneReport)).payload (fun _ => 0xff)
      (8 + (triggerUemeasRep (some oneReport)).headers) =
        some [6, 1, 0, 8, 0, 0, 0, 4, 0, 50, 0, 20] := by decide
  refine format_image payload .little ⟨1, 2, 3⟩ ?_ ?_
  · decide
  · decide

/-! What of an image depends on the host. -/

def headFront (type : UInt32) (id : EpHdrId) : List UInt8 :=
  [type.toUInt8] ++ ([empowerProtocolVers] ++ (Word.bytes .big id.enbId ++
    (Word.bytes .big id.cellId ++ Word.bytes .big id.modId)))

theorem headFront_length (type : UInt32) (id : EpHdrId) : (headFront type id).length = 16 := by
  simp [headFront, Word.width]

theorem headBytes_front (host : ByteOrder) (type : UInt32) (id : EpHdrId) (flags : UInt16) :
    headBytes host type id flags = headFront type id ++ Word.bytes host flags := by
  simp [headBytes, headFront, bytes_uint8]

theorem Message.eventBytes_host (host : ByteOrder) (msg : Message) :
    msg.eventBytes host = msg.eventBytes .big := by
  unfold eventBytes
  cases msg.type <;> simp [scheduleBytes, Emproto.eventBytes, bytes_uint8]

theorem reqFlag_bytes (host host' : ByteOrder) :
    Word.bytes host EpHdrFlagDir.req.flag = Word.bytes host' EpHdrFlagDir.req.flag := by
  cases host <;> cases host' <;> rfl

end Emproto
