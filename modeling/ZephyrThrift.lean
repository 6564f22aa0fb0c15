import ZephyrThrift.Muzic.DecoderTable
import ZephyrThrift.Muzic.Suspension
import ZephyrThrift.Muzic.Deflate
import ZephyrThrift.Muzic.InputCuts
import ZephyrThrift.Muzic.HeaderDelivery
import ZephyrThrift.Muzic.HeaderReading
import ZephyrThrift.Muzic.RunLengths
import ZephyrThrift.Muzic.UnassignedPatterns
import ZephyrThrift.Muzic.Restart
import ZephyrThrift.Muzic.TokenAgreement
import ZephyrThrift.Muzic.HeaderSafety
import ZephyrThrift.Muzic.WindowRing
import ZephyrThrift.Muzic.Checksum
import ZephyrThrift.Muzic.ErrorDetection
import ZephyrThrift.Muzic.FinishRetry
import ZephyrThrift.Muzic.Trailer
import ZephyrThrift.Muzic.OutputCuts
import ZephyrThrift.Muzic.OutputPieces
import ZephyrThrift.Muzic.Refills
import ZephyrThrift.Muzic.BitAccounting
import ZephyrThrift.Muzic.Assertions
import ZephyrThrift.Muzic.Endings
import ZephyrThrift.Muzic.Expansion
import ZephyrThrift.Server.Stopping
import ZephyrThrift.Server.Framework
import ZephyrThrift.Server.ClientLimit
import ZephyrThrift.Server.Xport
import ZephyrThrift.Transport.SocketFactory
import ZephyrThrift.Transport.PeerNames
import ZephyrThrift.Transport.ClientSocket
import ZephyrThrift.Muzic.Link
import ZephyrThrift.Muzic.OnlineCalls
import ZephyrThrift.Muzic.SharedStatics
import ZephyrThrift.Muzic.DrainLoop
import ZephyrThrift.Muzic.GreedyParse
import ZephyrThrift.Muzic.LongStreams
