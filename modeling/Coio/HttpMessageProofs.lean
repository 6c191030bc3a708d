import Coio.HttpReadProofs

/-! # `url::parse` and `build_msg` — from a URL to the bytes of a request

    A URL is cut at the first `"://"`, then at the first `'/'`, then at the first
    `'?'`; each cut searches what the one before has left.  `build_msg` puts the
    parts into a request: the request line, `Host`, the added headers in the order
    of their keys, `Content-Length` for a body, a blank line and the body. -/

namespace CoioHttpMessage

open CoioStreamBuffer CoioHttpParser CoioHttpRead CoioSearch

/-! ## `url` -/

structure Url where
  proto : Bytes
  host : Bytes
  path : Bytes
  query : Bytes
  deriving DecidableEq

inductive UrlErr where
  | invalidProto
  | invalidHost
  | invalidPath
  | invalidQuery
  deriving DecidableEq

/-- `"://"`. -/
def sepProto : Bytes := [58, 47, 47]

def Url.parse (urlStr : Bytes) : Except UrlErr Url :=
  match find urlStr sepProto 0 with
  | none => .error .invalidProto
  | some pos =>
      let proto := urlStr.take pos
      let urlStr := urlStr.drop (proto.length + 3)
      match find urlStr [47] 0 with
      | none => .error .invalidHost
      | some pos =>
          let host := urlStr.take pos
          let urlStr := urlStr.drop host.length
          match find urlStr [63] 0 with
          | none => .ok ⟨proto, host, urlStr, []⟩
          | some pos =>
              let path := urlStr.take pos
              .ok ⟨proto, host, path, urlStr.drop (path.length + 1)⟩

/-! ## `build_msg` -/

inductive HttpMethod where
  | get
  | post
  | head
  deriving DecidableEq

/-- `"GET"`, `"POST"` and `"HEAD"`. -/
def toStr : HttpMethod → Bytes
  | .get => [71, 69, 84]
  | .post => [80, 79, 83, 84]
  | .head => [72, 69, 65, 68]

/-- `" HTTP/1.0\r\nHost:"`. -/
def versionHost : Bytes :=
  [32, 72, 84, 84, 80, 47, 49, 46, 48, 13, 10, 72, 111, 115, 116, 58]

/-- `"Content-Length: "`. -/
def lengthKey : Bytes :=
  [67, 111, 110, 116, 101, 110, 116, 45, 76, 101, 110, 103, 116, 104, 58, 32]

/-- `std::to_string`. -/
def decimal (n : Nat) : Bytes := (Nat.toDigits 10 n).map fun c => UInt8.ofNat c.toNat

def buildMsg (mHeaders : List (Bytes × Bytes)) (u : Url) (method : HttpMethod) (body : Bytes) :
    Bytes :=
  toStr method ++ [32] ++ u.path
    ++ (if u.query ≠ [] then 63 :: u.query else [])
    ++ versionHost ++ u.host ++ crlf
    ++ mHeaders.flatMap (fun h => h.1 ++ [58, 32] ++ h.2 ++ crlf)
    ++ (if body ≠ [] ∨ method = .post then lengthKey ++ decimal body.length ++ crlf else [])
    ++ crlf
    ++ body

/-- `add_header`: `m_headers[k] = v` on the map. -/
def addHeader (k v : Bytes) : List (Bytes × Bytes) → List (Bytes × Bytes)
  | [] => [(k, v)]
  | (k', v') :: rest =>
      if k = k' then (k, v) :: rest
      else if k < k' then (k, v) :: (k', v') :: rest
      else (k', v') :: addHeader k v rest

theorem two_le_buildMsg (mHeaders : List (Bytes × Bytes)) (u : Url) (method : HttpMethod)
    (body : Bytes) : 2 ≤ (buildMsg mHeaders u method body).length := by
  unfold buildMsg crlf
  simp only [List.length_append, List.length_cons]
  omega

end CoioHttpMessage
