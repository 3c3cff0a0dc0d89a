import Sameness.Wire.EventPacket
import Sameness.Wire.Event
import Sameness.Server.Desktop
import Sameness.Server.Injectors
import Sameness.Server.Platform
import Sameness.Server.Loop
import Sameness.Server.Keyboard
import Sameness.Server.Untrusted
import Sameness.Library.Framing
import Sameness.Server.Delivery
import Sameness.Server.Isolation
import Sameness.Server.Flag
import Sameness.Client.ScreenEdgeSwitcher
import Sameness.Client.EdgeZones
import Sameness.Client.HookCallback
import Sameness.Client.Moves
import Sameness.Client.Overflow
import Sameness.Client.Forwarding
import Sameness.Client.Hidden
import Sameness.Client.Atomicity
import Sameness.Client.HeldKeys
import Sameness.Link.EndToEnd
import Sameness.Link.Payload
import Sameness.Link.WindowsButtons
import Sameness.Link.FallbackMouse
import Sameness.Link.MacOSButtons
import Sameness.Link.Acceptance
import Sameness.Link.Pointer
import Sameness.Link.Coalesced
import Sameness.Link.Columns
import Sameness.Link.Tracking
import Sameness.Link.TwoMachines
import Sameness.Link.Echo
import Sameness.Library.Channel
import Sameness.Library.Trigger
import Sameness.Library.Record
import Sameness.Library.Decimal
import Sameness.Client.Options
import Sameness.Client.Main
import Sameness.Server.Provenance
import Sameness.Server.Main
import Sameness.Link.Session
import Sameness.Link.Secrecy
import Sameness.Link.HeldInputs
import Sameness.Link.Content
import Sameness.Link.Positions
import Sameness.Link.Programs
