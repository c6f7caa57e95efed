import CodeAtlas.Decoder.Region
import CodeAtlas.Interval.Distinct
import CodeAtlas.Interval.Format.Reader
import CodeAtlas.Interval.Format.Writer
import CodeAtlas.Stream.CircularBuffer.View
import CodeAtlas.Proofs.Decoder.Failure
import CodeAtlas.Proofs.Decoder.Indifference
import CodeAtlas.Proofs.Decoder.OperandSize
import CodeAtlas.Proofs.Decoder.Refusal
import CodeAtlas.Proofs.Decoder.Sweep
import CodeAtlas.Proofs.Interval.Format.Union
import CodeAtlas.Proofs.Interval.Format.Grammar
import CodeAtlas.Proofs.Interval.Congruence
import CodeAtlas.Proofs.Interval.Lattice
import CodeAtlas.Proofs.Interval.Order
import CodeAtlas.Proofs.Interval.Range
import CodeAtlas.Proofs.Interval.Map.Arrangement
import CodeAtlas.Proofs.Interval.Map.Frame
import CodeAtlas.Proofs.Interval.Map.Run
import CodeAtlas.Proofs.Interval.Set.Canonical
import CodeAtlas.Proofs.Interval.Set.Extensionality
import CodeAtlas.Proofs.Stream.Account
import CodeAtlas.Proofs.Stream.Deque
import CodeAtlas.Proofs.Decoder.Integrity
import CodeAtlas.Proofs.Decoder.Relocation
import CodeAtlas.Proofs.Decoder.Demand
import CodeAtlas.Proofs.Decoder.Synonyms
import CodeAtlas.Proofs.Decoder.Typing
import CodeAtlas.Proofs.Decoder.Footprint
import CodeAtlas.Proofs.Interval.Set.Report
import CodeAtlas.Proofs.Interval.Set.Tiling
import CodeAtlas.Proofs.Encoding.Addressing
import CodeAtlas.Proofs.Decoder.Immediates
