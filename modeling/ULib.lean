import ULib.CdbAccessPaths
import ULib.JournalInsertions
import ULib.RingStream
import ULib.RingPacket
import ULib.CacheExpiry
import ULib.JsonRoundTrip
import ULib.MimeRoundTrip
import ULib.StringSharing
import ULib.QueryAnswers
import ULib.UrlComponents
import ULib.UrlQuery
import ULib.SessionToken
import ULib.RangeResolution
import ULib.ChunkedReading
import ULib.ContainerMaps
import ULib.SessionStore
import ULib.MimeHeaderRoundTrip
import ULib.MimeSectionRoundTrip
import ULib.HeaderScan
import ULib.WebSocketLength
import ULib.LogConservation
import ULib.TokenReading
import ULib.NotifierSweep
import ULib.NotifierSelect
import ULib.VersionOrder
import ULib.DelimiterEscape
import ULib.Substitution
import ULib.TextExpansion
import ULib.AddressFamily
import ULib.IpAllow
import ULib.ChunkBounds
import ULib.RequestLine
import ULib.HeaderValue
import ULib.CssMinifier
import ULib.EnvironmentExpansion
import ULib.RingDescriptor
import ULib.HashMapDuplicate
import ULib.CdbPattern
import ULib.CdbSave
import ULib.CacheTemplate
import ULib.StringSort
import ULib.Base64Decode
import ULib.EscapeText
import ULib.QuotedPrintableLines
import ULib.StringSplit
import ULib.UrlSlice
import ULib.Latin1
import ULib.NaturalOrder
import ULib.DosMatch
import ULib.XmlDecoding
import ULib.FileConfig
import ULib.ServicesRead
import ULib.FormatOutput
import ULib.DayOfYear
import ULib.HttpDate
import ULib.MonthArithmetic
import ULib.TimerArming
import ULib.QuotedToken
import ULib.HeaderEnd
import ULib.RdbReopen
import ULib.RdbServer
import ULib.VectorReferences
import ULib.MemoryPool
import ULib.DocumentRoot
import ULib.ResponseDelivery
