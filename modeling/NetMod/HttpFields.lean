import NetMod.BlitzText

/-!
# `http_util.bmx`: methods, header names and header fields

`THttpHelper` holds two maps between `EHttpHeader` and the header names, filled from one table.
Here the table is `EHttpHeader.toText`, and the map from lower-cased names is a search in it;
`nameToHeader_toText` says that the table has no two names that differ in case only.
-/

namespace NetMod.HttpFields

open NetMod.BlitzText

inductive EHttpMethod where
  | get | post | put | delete | head | options | patch | trace | connect | query
deriving DecidableEq, Repr

/-- `THttpHelper.HttpMethodToString`. -/
def httpMethodToString : EHttpMethod → Text
  | .get => lit "GET"
  | .post => lit "POST"
  | .put => lit "PUT"
  | .delete => lit "DELETE"
  | .head => lit "HEAD"
  | .options => lit "OPTIONS"
  | .patch => lit "PATCH"
  | .trace => lit "TRACE"
  | .connect => lit "CONNECT"
  | .query => lit "QUERY"

inductive EHttpHeader where
  | accept | acceptCharset | acceptEncoding | acceptLanguage | acceptRanges
  | accessControlAllowCredentials | accessControlAllowHeaders | accessControlAllowMethods
  | accessControlAllowOrigin | accessControlExposeHeaders | accessControlMaxAge
  | accessControlRequestHeaders | accessControlRequestMethod | age | allow | altSvc
  | authorization | cAuthority | cMethod | cPath | cProtocol | cScheme | cStatus | cacheControl
  | connection | contentDisposition | contentEncoding | contentLanguage | contentLength
  | contentLocation | contentMD5 | contentRange | contentTransferEncoding | contentType | cookie
  | date | eTag | expect | expires | forwarded | «from» | host | http2Settings | identity
  | ifMatch | ifModifiedSince | ifNoneMatch | ifRange | ifUnmodifiedSince | keepAlive
  | lastModified | link | location | maxForwards | mimeVersion | negotiate | origin | pragma
  | proxyAuthenticate | proxyAuthorization | proxyConnection | range | referer | requestRange
  | retryAfter | secWebsocketAccept | secWebsocketExtensions | secWebsocketKey
  | secWebsocketSubprotocol | secWebsocketVersion | server | servletEngine | setCookie
  | setCookie2 | strictTransportSecurity | te | timingAllowOrigin | trailer | transferEncoding
  | upgrade | userAgent | vary | via | warning | wwwAuthenticate | xForwardedFor | xForwardedHost
  | xForwardedPort | xForwardedProto | xForwardedServer | xPoweredBy
deriving DecidableEq, Repr

/-- `THttpHelper.HttpHeaderToString`. -/
def EHttpHeader.toText : EHttpHeader → Text
  | .accept => lit "Accept"
  | .acceptCharset => lit "Accept-Charset"
  | .acceptEncoding => lit "Accept-Encoding"
  | .acceptLanguage => lit "Accept-Language"
  | .acceptRanges => lit "Accept-Ranges"
  | .accessControlAllowCredentials => lit "Access-Control-Allow-Credentials"
  | .accessControlAllowHeaders => lit "Access-Control-Allow-Headers"
  | .accessControlAllowMethods => lit "Access-Control-Allow-Methods"
  | .accessControlAllowOrigin => lit "Access-Control-Allow-Origin"
  | .accessControlExposeHeaders => lit "Access-Control-Expose-Headers"
  | .accessControlMaxAge => lit "Access-Control-Max-Age"
  | .accessControlRequestHeaders => lit "Access-Control-Request-Headers"
  | .accessControlRequestMethod => lit "Access-Control-Request-Method"
  | .age => lit "Age"
  | .allow => lit "Allow"
  | .altSvc => lit "Alt-Svc"
  | .authorization => lit "Authorization"
  | .cAuthority => lit "C-Authority"
  | .cMethod => lit "C-Method"
  | .cPath => lit "C-Path"
  | .cProtocol => lit "C-Protocol"
  | .cScheme => lit "C-Scheme"
  | .cStatus => lit "C-Status"
  | .cacheControl => lit "Cache-Control"
  | .connection => lit "Connection"
  | .contentDisposition => lit "Content-Disposition"
  | .contentEncoding => lit "Content-Encoding"
  | .contentLanguage => lit "Content-Language"
  | .contentLength => lit "Content-Length"
  | .contentLocation => lit "Content-Location"
  | .contentMD5 => lit "Content-MD5"
  | .contentRange => lit "Content-Range"
  | .contentTransferEncoding => lit "Content-Transfer-Encoding"
  | .contentType => lit "Content-Type"
  | .cookie => lit "Cookie"
  | .date => lit "Date"
  | .eTag => lit "ETag"
  | .expect => lit "Expect"
  | .expires => lit "Expires"
  | .forwarded => lit "Forwarded"
  | .«from» => lit "From"
  | .host => lit "Host"
  | .http2Settings => lit "HTTP2-Settings"
  | .identity => lit "Identity"
  | .ifMatch => lit "If-Match"
  | .ifModifiedSince => lit "If-Modified-Since"
  | .ifNoneMatch => lit "If-None-Match"
  | .ifRange => lit "If-Range"
  | .ifUnmodifiedSince => lit "If-Unmodified-Since"
  | .keepAlive => lit "Keep-Alive"
  | .lastModified => lit "Last-Modified"
  | .link => lit "Link"
  | .location => lit "Location"
  | .maxForwards => lit "Max-Forwards"
  | .mimeVersion => lit "Mime-Version"
  | .negotiate => lit "Negotiate"
  | .origin => lit "Origin"
  | .pragma => lit "Pragma"
  | .proxyAuthenticate => lit "Proxy-Authenticate"
  | .proxyAuthorization => lit "Proxy-Authorization"
  | .proxyConnection => lit "Proxy-Connection"
  | .range => lit "Range"
  | .referer => lit "Referer"
  | .requestRange => lit "Request-Range"
  | .retryAfter => lit "Retry-After"
  | .secWebsocketAccept => lit "Sec-WebSocket-Accept"
  | .secWebsocketExtensions => lit "Sec-WebSocket-Extensions"
  | .secWebsocketKey => lit "Sec-WebSocket-Key"
  | .secWebsocketSubprotocol => lit "Sec-WebSocket-Subprotocol"
  | .secWebsocketVersion => lit "Sec-WebSocket-Version"
  | .server => lit "Server"
  | .servletEngine => lit "Servlet-Engine"
  | .setCookie => lit "Set-Cookie"
  | .setCookie2 => lit "Set-Cookie2"
  | .strictTransportSecurity => lit "Strict-Transport-Security"
  | .te => lit "TE"
  | .timingAllowOrigin => lit "Timing-Allow-Origin"
  | .trailer => lit "Trailer"
  | .transferEncoding => lit "Transfer-Encoding"
  | .upgrade => lit "Upgrade"
  | .userAgent => lit "User-Agent"
  | .vary => lit "Vary"
  | .via => lit "Via"
  | .warning => lit "Warning"
  | .wwwAuthenticate => lit "WWW-Authenticate"
  | .xForwardedFor => lit "X-Forwarded-For"
  | .xForwardedHost => lit "X-Forwarded-Host"
  | .xForwardedPort => lit "X-Forwarded-Port"
  | .xForwardedProto => lit "X-Forwarded-Proto"
  | .xForwardedServer => lit "X-Forwarded-Server"
  | .xPoweredBy => lit "X-Powered-By"

/-- The order of the table. -/
def EHttpHeader.all : List EHttpHeader :=
  [.accept, .acceptCharset, .acceptEncoding, .acceptLanguage, .acceptRanges,
   .accessControlAllowCredentials, .accessControlAllowHeaders, .accessControlAllowMethods,
   .accessControlAllowOrigin, .accessControlExposeHeaders, .accessControlMaxAge,
   .accessControlRequestHeaders, .accessControlRequestMethod, .age, .allow, .altSvc,
   .authorization, .cAuthority, .cMethod, .cPath, .cProtocol, .cScheme, .cStatus, .cacheControl,
   .connection, .contentDisposition, .contentEncoding, .contentLanguage, .contentLength,
   .contentLocation, .contentMD5, .contentRange, .contentTransferEncoding, .contentType, .cookie,
   .date, .eTag, .expect, .expires, .forwarded, .«from», .host, .http2Settings, .identity,
   .ifMatch, .ifModifiedSince, .ifNoneMatch, .ifRange, .ifUnmodifiedSince, .keepAlive,
   .lastModified, .link, .location, .maxForwards, .mimeVersion, .negotiate, .origin, .pragma,
   .proxyAuthenticate, .proxyAuthorization, .proxyConnection, .range, .referer, .requestRange,
   .retryAfter, .secWebsocketAccept, .secWebsocketExtensions, .secWebsocketKey,
   .secWebsocketSubprotocol, .secWebsocketVersion, .server, .servletEngine, .setCookie,
   .setCookie2, .strictTransportSecurity, .te, .timingAllowOrigin, .trailer, .transferEncoding,
   .upgrade, .userAgent, .vary, .via, .warning, .wwwAuthenticate, .xForwardedFor, .xForwardedHost,
   .xForwardedPort, .xForwardedProto, .xForwardedServer, .xPoweredBy]

/-- `_nameToHeaderCache.TryGetValue(name.ToLower(), …)`. -/
def nameToHeader (P : Platform) (name : Text) : Option EHttpHeader :=
  EHttpHeader.all.find? fun h => P.toLower h.toText == P.toLower name

theorem EHttpHeader.mem_all (h : EHttpHeader) : h ∈ EHttpHeader.all := by
  cases h <;> decide

theorem EHttpHeader.toText_ascii (h : EHttpHeader) :
    h.toText.all (fun c => decide (c < 192)) = true := by
  cases h <;> exact lit_ascii rfl

/-- **Every header is found under its own name**, in any spelling of its letters. -/
theorem nameToHeader_toText (P : Platform) (h : EHttpHeader) : nameToHeader P h.toText = some h := by
  have hascii : ∀ h : EHttpHeader, P.toLower h.toText = asciiPlatform.toLower h.toText :=
    fun h => toLower_of_ascii P h.toText_ascii
  have hfun : (fun h' : EHttpHeader => P.toLower h'.toText == P.toLower h.toText) =
      fun h' => asciiPlatform.toLower h'.toText == asciiPlatform.toLower h.toText := by
    funext h'
    rw [hascii h', hascii h]
  have hall : ∀ h ∈ EHttpHeader.all, nameToHeader asciiPlatform h.toText = some h := by
    decide +kernel
  rw [nameToHeader, hfun]
  exact hall h h.mem_all

/-- `THttpField`; `header` is `_header` where `_set`. -/
structure THttpField where
  header : Option EHttpHeader
  name : Text
  value : Text
deriving DecidableEq, Repr

namespace THttpField

/-- `New(header, value)`. -/
def ofHeader (header : EHttpHeader) (value : Text) : THttpField :=
  ⟨some header, header.toText, value⟩

/-- `New(name, value)`. -/
def ofName (P : Platform) (name value : Text) : THttpField :=
  ⟨nameToHeader P name, name, value⟩

/-- `Is(name)`. -/
def is (P : Platform) (f : THttpField) (name : Text) : Bool := P.toLower f.name == P.toLower name

end THttpField

/-- `THttpFields`. -/
structure THttpFields where
  fields : List THttpField := []
deriving DecidableEq, Repr

namespace THttpFields

/-- `Add(field)`. -/
def add (s : THttpFields) (f : THttpField) : THttpFields := ⟨s.fields ++ [f]⟩

/-- `Add(line)`: the field a line stands for, if it has a colon behind its first unit. -/
def lineField (P : Platform) (line : Text) : Option THttpField :=
  match find line (asc ':') with
  | some sepPos =>
    if 0 < sepPos then
      some (.ofName P (trim (slice line 0 sepPos)) (trim (line.drop (sepPos + 1))))
    else none
  | none => none

def addLine (P : Platform) (s : THttpFields) (line : Text) : THttpFields × Option THttpField :=
  match lineField P line with
  | some f => (s.add f, some f)
  | none => (s, none)

/-- `GetFirst(name)`; `Null` is `[]`. -/
def getFirst (P : Platform) (s : THttpFields) (name : Text) : Text :=
  ((s.fields.find? fun f => f.is P name).map (·.value)).getD []

/-- `HasHeader(header)`. -/
def hasHeader (s : THttpFields) (header : EHttpHeader) : Bool :=
  s.fields.any fun f => f.header == some header

/-- `ToSList()`. -/
def toSList (s : THttpFields) : List Text := s.fields.map fun f => f.name ++ lit ": " ++ f.value

def isEmpty (s : THttpFields) : Bool := s.fields.isEmpty

end THttpFields

end NetMod.HttpFields
