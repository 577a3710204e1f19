import Aff4.Base64
import Aff4.Base32
import Aff4.UrnText
import Aff4.Datetime
import Aff4.StringBlock
import Aff4.SerializerBuffer
import Aff4.WriteCache
import Aff4.CacheIteration
import Aff4.GlobalLock
import Aff4.QueueThreads
import Aff4.ZipAppend
import Aff4.ZipAccounting
import Aff4.ZipListing
import Aff4.ImageIndex
import Aff4.ImageReturns
import Aff4.ImageSchedule
import Aff4.ImageWorkers
import Aff4.MapBinary
import Aff4.MapInvariant
import Aff4.MapPeriod
import Aff4.MapRead
import Aff4.EncryptedRead
import Aff4.PyMapRead
import Aff4.PyMapSparse
import Aff4.PyZipVolume
import Aff4.PyHashImager
import Aff4.JavaQuadStore
import Aff4.JavaMapReader
import Aff4.TcpFlush
import Aff4.TcpPadding
import Aff4.PacketRoundTrip
import Aff4.PacketUnpack
import Aff4.PacketTree
import Aff4.Dissect
import Aff4.FastStore
import Aff4.Lexer
import Aff4.HttpBody
import Aff4.RaidMap
