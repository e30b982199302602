import CppNet.Lib.Fields
import CppNet.Lib.Tokens
import CppNet.Lib.Escapes
import CppNet.Lib.Machine
import CppNet.Lib.Fleet
import CppNet.Lib.Outbox
import CppNet.Lib.Acceptor
import CppNet.Lib.Turnstile
import CppNet.Lib.Once
import CppNet.Lib.Mutex
import CppNet.Lib.Pipeline
import CppNet.Lib.Connected
import CppNet.Cxx
import CppNet.Http.Url
import CppNet.Http.Grammar
import CppNet.Http.Connection
import CppNet.Http.Query
import CppNet.Http.Dispatch
import CppNet.Http.Callbacks
import CppNet.Http.Server
import CppNet.Http.Accepting
import CppNet.Http.Answers
import CppNet.Http.Lifetime
import CppNet.Http.Registrations
import CppNet.Http.Singleton
import CppNet.SessionApi.Model
import CppNet.SessionApi.Writer
import CppNet.SessionApi.Frame
import CppNet.SessionApi.Flags
import CppNet.SessionApi.Receive
import CppNet.SessionApi.Single
import CppNet.SessionApi.Buffers
import CppNet.SessionApi.Session
import CppNet.SessionApi.Whole
import CppNet.SessionApi.Peers
import CppNet.Sync.Model
import CppNet.Sync.Agreement
import CppNet.Sync.Failures
import CppNet.Sync.Programs
import CppNet.Sync.Blocking
import CppNet.Sync.Threads
import CppNet.HalfDuplex.Session
import CppNet.HalfDuplex.SharedServer
import CppNet.HalfDuplex.RawServer
import CppNet.HalfDuplex.Service
import CppNet.HalfDuplex.Clients
import CppNet.HalfDuplex.Refactoring
import CppNet.Duplex.Model
import CppNet.Duplex.Echo
import CppNet.Duplex.Schedule
import CppNet.Duplex.Threads
import CppNet.Duplex.SendQueue
import CppNet.Duplex.Contents
import CppNet.Duplex.Frames
import CppNet.Duplex.Relay
import CppNet.Duplex.Framing
import CppNet.Duplex.Lengths
import CppNet.Duplex.Server
import CppNet.Duplex.Sessions
import CppNet.Printing
