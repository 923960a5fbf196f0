import NyanChat.HashmapMap
import NyanChat.HashmapTermination
import NyanChat.HashmapCount
import NyanChat.ErrorCorrection
import NyanChat.Detection
import NyanChat.Reception
import NyanChat.Broadcast
import NyanChat.Directory
import NyanChat.Delivery
import NyanChat.ClientEvents
import NyanChat.Client
import NyanChat.ClientRuns
import NyanChat.Acknowledgments
import NyanChat.Forwarding
import NyanChat.Library.Leases
import NyanChat.Network
import NyanChat.Reconnection
import NyanChat.Routing
import NyanChat.Transmission
import NyanChat.Acceptance
import NyanChat.Rounds
import NyanChat.BoundedRuns
import NyanChat.OwnConnections
import NyanChat.Chat
import NyanChat.DiskRuns
import NyanChat.ErrorPatterns
import NyanChat.SessionTimes
import NyanChat.LineEditor
import NyanChat.MarkedBytes
import NyanChat.Matrices
import NyanChat.CodeDistance
import NyanChat.MessageCopies
import NyanChat.Uninitialized
import NyanChat.InputDisplay
import NyanChat.MessageCursor
import NyanChat.FileReading
import NyanChat.AsciiArt
import NyanChat.LineInput
import NyanChat.Redraw
import NyanChat.HashmapResize
import NyanChat.HashmapFile
import NyanChat.Pseudos
import NyanChat.KeyDecoder
import NyanChat.AnsiProgram
import NyanChat.Authorship
import NyanChat.LoopSteps
import NyanChat.ProxyChat
