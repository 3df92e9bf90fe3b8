import AlphaMiner.Lib.PointsTo
import AlphaMiner.Proofs.AddressFile
import AlphaMiner.Proofs.AddressKinds
import AlphaMiner.Proofs.Credentials
import AlphaMiner.Proofs.Epoch
import AlphaMiner.Proofs.Extranonce
import AlphaMiner.Proofs.GbtFailure
import AlphaMiner.Proofs.GbtHeader
import AlphaMiner.Proofs.GbtReturns
import AlphaMiner.Proofs.HexBuffer
import AlphaMiner.Proofs.HttpBody
import AlphaMiner.Proofs.HttpHeaders
import AlphaMiner.Proofs.Jansson.Dump
import AlphaMiner.Proofs.Jansson.HashtableCalls
import AlphaMiner.Proofs.Jansson.Objects
import AlphaMiner.Proofs.Jansson.Utf
import AlphaMiner.Proofs.JsonDocument
import AlphaMiner.Proofs.Midstate
import AlphaMiner.Proofs.MinerNonces
import AlphaMiner.Proofs.Mining
import AlphaMiner.Proofs.NotifyWhole
import AlphaMiner.Proofs.Payout
import AlphaMiner.Proofs.PthreadBarrier
import AlphaMiner.Proofs.RecvLine
import AlphaMiner.Proofs.Refill
import AlphaMiner.Proofs.ScanComplete
import AlphaMiner.Proofs.Seed
import AlphaMiner.Proofs.SendLine
import AlphaMiner.Proofs.Session
import AlphaMiner.Proofs.Share
import AlphaMiner.Proofs.ShareTarget
import AlphaMiner.Proofs.ShareText
import AlphaMiner.Proofs.SocketBuffer
import AlphaMiner.Proofs.StratumTarget
import AlphaMiner.Proofs.ThreadList
import AlphaMiner.Proofs.ThreadQueue
import AlphaMiner.Proofs.TreeFold
import AlphaMiner.Proofs.Typos
import AlphaMiner.Proofs.UrlArg
import AlphaMiner.Proofs.Workio
