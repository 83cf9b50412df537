import MicStream.Main
import MicStream.Node
import MicStream.Recorder
import MicStream.Stream.Schedule
import MicStream.Wire.Bridge
import MicStream.Capture.Fill
import MicStream.Proofs.Codec.FrameStream
import MicStream.Proofs.Stream.Delivery
import MicStream.Proofs.Stream.Stamps
import MicStream.Proofs.Node.Phases
import MicStream.Proofs.Capture.Ownership
import MicStream.Proofs.Stream.Sightings
import MicStream.Proofs.Stream.Starting
import MicStream.Proofs.Localization.Smoothing
import MicStream.Proofs.Node.Opening
import MicStream.Proofs.Codec.Sessions
import MicStream.Proofs.Queue.Lines
import MicStream.Proofs.Wire.Datagrams
import MicStream.Proofs.Wire.Gaps
import MicStream.Proofs.Control.Echo
import MicStream.Proofs.Localization.Solving
import MicStream.Proofs.Localization.Correlating
import MicStream.Proofs.Capture.Filling
import MicStream.Proofs.Localization.Windows
import MicStream.Proofs.Localization.Degenerate
import MicStream.Proofs.Localization.Silence
import MicStream.Proofs.Capture.Periods
import MicStream.Proofs.Localization.Loading
import MicStream.Proofs.Localization.Construction
import MicStream.Proofs.Localization.Echoes
import MicStream.Proofs.Localization.Arrivals
import MicStream.Proofs.Localization.Levels
import MicStream.Proofs.Codec.Refusals
import MicStream.Proofs.Localization.Resolving
import MicStream.Proofs.Localization.Exchange
import MicStream.Proofs.Localization.Crossing
import MicStream.Proofs.Localization.Symmetry
import MicStream.Proofs.Capture.Scaling
import MicStream.Proofs.Localization.Regular
