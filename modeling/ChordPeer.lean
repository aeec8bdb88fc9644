import ChordPeer.Views
import ChordPeer.Neighbours
import ChordPeer.Reference
import ChordPeer.Ownership
import ChordPeer.Forwarding
import ChordPeer.Pending
import ChordPeer.Client
import ChordPeer.Senders
import ChordPeer.Stabilizing
import ChordPeer.Responsibility
import ChordPeer.Bounds
import ChordPeer.Serving
import ChordPeer.Acknowledged
import ChordPeer.Buffers
import ChordPeer.Frame
import ChordPeer.Accesses
import ChordPeer.Correction
import ChordPeer.Receiving
import ChordPeer.Delivery
import ChordPeer.Queues
import ChordPeer.Fingers
import ChordPeer.Records
import ChordPeer.Addresses
import ChordPeer.HashHelper
import ChordPeer.Shares
import ChordPeer.Sessions
import ChordPeer.Invocations
import ChordPeer.Origins
import ChordPeer.Lookups
import ChordPeer.Startup
import ChordPeer.Processes
