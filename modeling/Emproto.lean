import Emproto.ByteOrder
import Emproto.BufferCode
import Emproto.TokenWalk
import Emproto.TokenBytes
import Emproto.Fills
import Emproto.Header
import Emproto.HeaderParse
import Emproto.HeaderRegisters
import Emproto.RntiReport
import Emproto.Ran
import Emproto.RanSlice
import Emproto.RanParse
import Emproto.RanSliceRoundTrip
import Emproto.SlotTable
import Emproto.SlotRuns
import Emproto.UeReport
import Emproto.UeTable
import Emproto.UeReportRoundTrip
import Emproto.CountedArray
import Emproto.EnbCaps
import Emproto.EnbCapsRun
import Emproto.EnbCapsRoundTrip
import Emproto.CellMeas
import Emproto.UeMeas
import Emproto.WalkAgreement
import Emproto.ReadSafety
import Emproto.BodyRanges
import Emproto.Hello
import Emproto.Handover
import Emproto.FixedBodies
import Emproto.BodyFills
import Emproto.Messages
import Emproto.Stream
import Emproto.Dispatch
import Emproto.FixedMessages
import Emproto.ReportLength
import Emproto.StaleBytes
import Emproto.Leftovers
import Emproto.Transparency
import Emproto.LastTokens
import Emproto.TokenLoops
import Emproto.WireRoundTrips
import Emproto.UeMeasRoundTrip
import Emproto.ExactFits
import Emproto.UeCounts
import Emproto.SliceOrder
import Emproto.RntiContainer
import Emproto.ArrayReads
import Emproto.CellReports
import Emproto.Accumulators
import Emproto.NullOutputs
import Emproto.SlotHistory
import Emproto.UeTableRuns
import Emproto.Redelivery
import Emproto.SliceRuns
import Emproto.Confinement
import Emproto.WireImage
import Emproto.Delivery
import Emproto.ReadBounds
import Emproto.Locality
import Emproto.FrameReads
import Emproto.UniqueFrames
import Emproto.BufferReuse
import Emproto.TwoHosts
import Emproto.TwoSenders
