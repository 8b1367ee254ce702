import NetMod.Lib.LiveHistory
import NetMod.Lib.UniqueImage
import NetMod.BlitzText
import NetMod.HttpCookie
import NetMod.CookieStore
import NetMod.CookieStoreEffects
import NetMod.CookieStoreRuns
import NetMod.Lib.PartialRuns
import NetMod.Lib.ByteMemory
import NetMod.HstreamReader
import NetMod.HttpsStream
import NetMod.Lib.ChunkedReads
import NetMod.RequestContent
import NetMod.HttpFields
import NetMod.SetCookieParser
import NetMod.SetCookieScan
import NetMod.Lib.SeparatedText
import NetMod.SetCookieText
import NetMod.SetCookieGrammar
import NetMod.RedirectCookies
import NetMod.CaStore
import NetMod.RequestPreparation
import NetMod.RequestHeaders
import NetMod.CookieHeader
import NetMod.MinHeap
import NetMod.MinHeapOrder
import NetMod.Lib.RetryLedger
import NetMod.RetryPolicy
import NetMod.ClientEngine
import NetMod.ClientRefinement
import NetMod.ClientAccounting
import NetMod.ClientShutdown
import NetMod.ClientRetries
import NetMod.RetryAfter
import NetMod.Lib.FixedWidth
import NetMod.MemorySink
import NetMod.ResponseHeaders
import NetMod.SetCookieTotality
import NetMod.SetCookieQuotes
import NetMod.CookieAttributes
import NetMod.AttemptIsolation
import NetMod.CookieStoreIdentity
import NetMod.CookieStoreInterleaving
import NetMod.CookieExpiry
import NetMod.CookieStoreRemoval
import NetMod.CookieStoreEmptiness
import NetMod.CookieStorePaths
import NetMod.CookieStoreWalk
import NetMod.Lib.PercentEncoding
import NetMod.Utf8Text
import NetMod.UrlQuery
import NetMod.QueryFields
import NetMod.RetryTimetable
import NetMod.HeaderLookup
import NetMod.CaProvider
import NetMod.CurlSlist
import NetMod.Lib.FreeLedger
import NetMod.SlistOwnership
import NetMod.FormData
import NetMod.Lib.StepConditions
import NetMod.CurlMulti
import NetMod.HeapQueue
import NetMod.EasyEscape
import NetMod.CurlText
import NetMod.UrlApi
import NetMod.RequestUrl
import NetMod.Lib.Gregorian
import NetMod.ParseDate
import NetMod.ExpiresRoundTrip
import NetMod.Lib.DotSegments
import NetMod.UrlPath
import NetMod.UrlHost
import NetMod.UrlAuthority
import NetMod.UrlRewriting
import NetMod.UrlBuilder
import NetMod.Lib.Monitors
import NetMod.Lib.Wakeups
import NetMod.ConcurrentQueue
import NetMod.Waiter
import NetMod.Lib.Base64
import NetMod.Base64Text
import NetMod.PemText
import NetMod.CrtParse
import NetMod.CaBundle
import NetMod.Lib.PiecewiseInput
import NetMod.ChunkedDecoder
import NetMod.BufferQueue
import NetMod.BufferQueueRuns
import NetMod.ChunkedEncoder
