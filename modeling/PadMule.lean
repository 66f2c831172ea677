import PadMule.Lib.Spans
import PadMule.Lib.LittleEndian
import PadMule.Lib.Readers
import PadMule.Lib.Decimal
import PadMule.Lib.CommaList
import PadMule.Lib.SortedMap
import PadMule.Lib.FileMap
import PadMule.Lib.Paths
import PadMule.Lib.Slots
import PadMule.Lib.BitPath
import PadMule.Lib.Segments
import PadMule.Proto.Hash
import PadMule.Proto.Io
import PadMule.Proto.Tag
import PadMule.Proto.KadId
import PadMule.Proto.AichBase32
import PadMule.Proto.AichTree
import PadMule.Proto.AichShape
import PadMule.Proto.AichComplete
import PadMule.Proto.AichStream
import PadMule.Proto.AichRecords
import PadMule.Proto.AichVerify
import PadMule.Proto.AichBlocks
import PadMule.Proto.AichRecovery
import PadMule.Proto.AichForgery
import PadMule.Proto.AichResidue
import PadMule.Files.PartMet
import PadMule.Files.GapTags
import PadMule.Files.Preferences
import PadMule.Files.KnownMet
import PadMule.Files.Known2Met
import PadMule.Engine.PartFile
import PadMule.Engine.PartStore
import PadMule.Engine.Resume
import PadMule.Engine.MetSave
import PadMule.Engine.ConfigDir
import PadMule.Engine.DownloadRuns
import PadMule.Engine.Commit
import PadMule.Lib.Bitfield
import PadMule.Lib.Inflate
import PadMule.Lib.StoredZlib
import PadMule.Proto.Packet
import PadMule.Engine.TransferCodec
import PadMule.Engine.BlockReceiver
import PadMule.Engine.ReceiverRuns
import PadMule.Engine.ReceiverOnce
import PadMule.Engine.HonestReply
import PadMule.Lib.Leases
import PadMule.Engine.NextBlocks
import PadMule.Lib.Runs
import PadMule.Engine.SecureIdent
import PadMule.Engine.PeerSessions
import PadMule.Engine.Reservations
import PadMule.Lib.Lanes
import PadMule.Engine.PresentBytes
import PadMule.Proto.Ed2kHash
import PadMule.Engine.Finish
import PadMule.Lib.Ballots
import PadMule.Engine.AichTrust
import PadMule.Engine.UploadGate
import PadMule.Engine.WakeUps
import PadMule.Engine.IdentityProof
import PadMule.Files.ClientsMet
import PadMule.Engine.CreditStore
import PadMule.Lib.Recent
import PadMule.Engine.ServeSec
import PadMule.Engine.ServeSession
import PadMule.Engine.ServeLog
import PadMule.Engine.ServePackets
import PadMule.Engine.ServeShared
import PadMule.Engine.StolenHash
import PadMule.Engine.NodeIdentity
import PadMule.Engine.UniqueDest
import PadMule.Engine.EndedDownload
import PadMule.Engine.SharedLibrary
import PadMule.Kad.Diversity
import PadMule.Kad.TableContacts
import PadMule.Kad.Hearsay
import PadMule.Kad.Eviction
import PadMule.Kad.Message
import PadMule.Kad.UdpObf
import PadMule.Kad.Lookup
import PadMule.Kad.LookupEnds
import PadMule.Engine.SharingPause
import PadMule.Engine.ServerLogin
import PadMule.Engine.WireIdentity
import PadMule.Engine.Framed
import PadMule.Engine.DialGates
import PadMule.Engine.LibraryAgrees
import PadMule.Engine.LiveDownloads
import PadMule.Engine.KadGate
import PadMule.Engine.KadAck
import PadMule.Engine.KadDemux
import PadMule.Engine.KadDrive
import PadMule.Engine.Known2Runs
import PadMule.Engine.ObfHandshake
import PadMule.Engine.SourceExchange
import PadMule.Engine.SearchTree
import PadMule.Engine.Catalog
import PadMule.Engine.SearchFilters
import PadMule.Engine.CatalogTasks
import PadMule.Engine.ServerRequests
import PadMule.Kad.Flood
import PadMule.Kad.Closest
import PadMule.Engine.SearchWords
import PadMule.Engine.ServedList
import PadMule.Engine.LookupDriver
import PadMule.Engine.Sweep
import PadMule.Engine.SweepParks
import PadMule.Engine.SweepCount
import PadMule.Files.ServerMet
import PadMule.Engine.ServerList
import PadMule.Files.NodesDat
import PadMule.Kad.LoadNodes
import PadMule.Lib.LastWins
import PadMule.Engine.KadCheckpoint
import PadMule.Lib.Quota
import PadMule.Engine.Admission
import PadMule.Engine.CatalogOrder
import PadMule.Engine.ServerCrawl
import PadMule.Kad.Keywords
import PadMule.Engine.KadPublish
import PadMule.Lib.Turns
import PadMule.Engine.SweepTurns
import PadMule.Engine.ShareOffers
import PadMule.Engine.SearchPaging
import PadMule.Engine.FinishedDownloads
import PadMule.Engine.ServerProbe
import PadMule.Proto.Ed2kStream
import PadMule.Engine.Multipacket
import PadMule.Lib.Text
import PadMule.Lib.BinarySearch
import PadMule.Engine.BlocklistText
import PadMule.Engine.Blocklist
import PadMule.Lib.PercentText
import PadMule.Engine.LinkText
import PadMule.Engine.LinkFields
import PadMule.Engine.Link
import PadMule.Kad.Frame
import PadMule.Kad.Requests
import PadMule.Kad.FloodBudget
import PadMule.Lib.Nearest
import PadMule.Engine.KadProven
import PadMule.Engine.KadServe
import PadMule.Engine.KadNode
import PadMule.Engine.KadAnswers
import PadMule.Engine.KadNamed
import PadMule.Engine.KadBudget
import PadMule.Engine.KadExchange
import PadMule.Engine.PeerHello
import PadMule.Engine.PeerHandshake
import PadMule.Engine.PeerMeeting
import PadMule.Engine.PeerRun
import PadMule.Lib.Pipeline
