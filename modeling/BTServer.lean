import BTServer.Shared.LinkedList
import BTServer.Peer.Message
import BTServer.Peer.WireFormat
import BTServer.Peer.Bounds
import BTServer.Peer.Stream
import BTServer.Peer.Dispatch
import BTServer.Timer.Model
import BTServer.Timer.Handles
import BTServer.Timer.Single
import BTServer.Timer.Order
import BTServer.Bencode.Bounds
import BTServer.Bencode.Ownership
import BTServer.Bencode.WellFormed
import BTServer.Bencode.Objects
import BTServer.Bencode.Losses
import BTServer.Bencode.Progress
import BTServer.Bencode.Extent
import BTServer.Bencode.Errno
import BTServer.Bencode.Messages
import BTServer.Metainfo.Model
import BTServer.Metainfo.Ownership
import BTServer.Metainfo.Projection
import BTServer.Metainfo.Sizes
import BTServer.Metainfo.Print
import BTServer.Metainfo.Messages
import BTServer.Socket.Sharing
import BTServer.Socket.Lifetime
import BTServer.Socket.Sendall
import BTServer.Socket.Bind
import BTServer.Lua.Progress
import BTServer.Lua.Truncation
import BTServer.Lua.Strictness
import BTServer.Lua.TableSearch
import BTServer.Peer.KeepAlive
import BTServer.Shared.Stores
import BTServer.Timer.Frame
import BTServer.Timer.Memory
import BTServer.Timer.Process
import BTServer.Bencode.Attach
import BTServer.Bencode.Removal
import BTServer.Lua.Script
import BTServer.Peer.SendMessage
import BTServer.Peer.Manage
import BTServer.Socket.SyncSend
import BTServer.Socket.LinkedQueue
import BTServer.Metainfo.Clients
import BTServer.Timer.OwnTimer
import BTServer.Timer.Restart
