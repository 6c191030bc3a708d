import Coio.HttpMessageProofs

/-! # What `url::parse` accepts, and what `build_msg` makes of it

    Each of the three cuts of `url::parse` is at a first occurrence, so the parts say
    where they were cut: `proto` has no `"://"`, `host` no `'/'`, `path` no `'?'`.
    Conversely parts of this form are found again, since none of the separators
    overlaps itself.

    The request line is not a copy of the URL.  An empty query is left out with its
    `'?'`, and a space or a line end in the URL goes into the request as it is. -/

namespace CoioHttpUrl

open CoioSearch CoioHttpParser CoioHttpRead CoioHttpMessage

/-! ## The grammar -/

/-- What `url::parse` makes of `s`, by the cuts that lead there. -/
inductive Parsed (s : Bytes) : Except UrlErr Url → Prop
  | noProto (hs : ¬ sepProto <:+: s) : Parsed s (.error .invalidProto)
  | noHost {proto rest : Bytes} (hs : Cut sepProto s proto rest) (hrest : 47 ∉ rest) :
      Parsed s (.error .invalidHost)
  | noQuery {proto rest host tail : Bytes} (hs : Cut sepProto s proto rest)
      (hrest : Cut [47] rest host tail) (htail : 63 ∉ 47 :: tail) :
      Parsed s (.ok ⟨proto, host, 47 :: tail, []⟩)
  | query {proto rest host tail path query : Bytes} (hs : Cut sepProto s proto rest)
      (hrest : Cut [47] rest host tail) (htail : Cut [63] (47 :: tail) path query) :
      Parsed s (.ok ⟨proto, host, path, query⟩)

section Parse

variable {s proto rest host tail path query : Bytes}

/-- The three searches, one after another. -/
theorem parse_eq_of_cut (hs : Cut sepProto s proto rest) (hrest : Cut [47] rest host tail) :
    Url.parse s =
      (find (47 :: tail) [63] 0).elim (.ok ⟨proto, host, 47 :: tail, []⟩) fun pos =>
        .ok ⟨proto, host, (47 :: tail).take pos,
          (47 :: tail).drop (((47 :: tail).take pos).length + 1)⟩ := by
  have hdrop : s.drop (proto.length + 3) = rest := hs.drop_add
  have hdrop' : rest.drop host.length = 47 :: tail := hrest.drop
  unfold Url.parse
  simp only [find_of_cut hs, hs.take, hdrop, find_of_cut hrest, hrest.take, hdrop']
  cases find (47 :: tail) [63] 0 <;> rfl

/-- **PARSE**: the cuts determine the result. -/
theorem parse_of_parsed {o : Except UrlErr Url} (h : Parsed s o) : Url.parse s = o := by
  cases h with
  | noProto hs =>
      unfold Url.parse
      rw [find_eq_none_iff.mpr hs]
  | @noHost proto rest hs hrest =>
      have hdrop : s.drop (proto.length + 3) = rest := hs.drop_add
      unfold Url.parse
      simp only [find_of_cut hs, hs.take, hdrop, find_singleton_eq_none.mpr hrest]
  | noQuery hs hrest htail =>
      rw [parse_eq_of_cut hs hrest, find_singleton_eq_none.mpr htail, Option.elim_none]
  | @query proto rest host tail path query hs hrest htail =>
      have hdrop : (47 :: tail).drop (path.length + 1) = query := htail.drop_add
      rw [parse_eq_of_cut hs hrest, find_of_cut htail, Option.elim_some, htail.take, hdrop]

/-- Every string has such cuts. -/
theorem exists_parsed (s : Bytes) : ∃ o, Parsed s o := by
  cases hs : find s sepProto 0 with
  | none => exact ⟨_, .noProto (find_eq_none_iff.mp hs)⟩
  | some i =>
      have hcut := (cut_of_find hs).1
      generalize s.drop (i + sepProto.length) = rest at hcut
      cases hrest : find rest [47] 0 with
      | none => exact ⟨_, .noHost hcut (find_singleton_eq_none.mp hrest)⟩
      | some k =>
          have hcut' := (cut_of_find hrest).1
          generalize rest.drop (k + [(47 : UInt8)].length) = tail at hcut'
          cases htail : find (47 :: tail) [63] 0 with
          | none => exact ⟨_, .noQuery hcut hcut' (find_singleton_eq_none.mp htail)⟩
          | some l => exact ⟨_, .query hcut hcut' (cut_of_find htail).1⟩

theorem parsed_parse (s : Bytes) : Parsed s (Url.parse s) := by
  obtain ⟨o, ho⟩ := exists_parsed s
  rw [parse_of_parsed ho]
  exact ho

end Parse

theorem borderless_sepProto : Borderless sepProto := by decide

/-- A path begins with the `'/'` that ends the host. -/
theorem head_path {tail path query : Bytes} (h : Cut [63] (47 :: tail) path query) :
    path.head? = some 47 := by
  have hs : 47 :: tail = path ++ 63 :: query := h.1
  cases path with
  | nil => cases hs
  | cons b path => rw [List.head?_cons, (List.cons.inj hs).1]

/-- Which strings are accepted, and what is missing in the others. -/
theorem parse_outcome (s : Bytes) :
    ((∃ u, Url.parse s = .ok u) ↔ ∃ proto rest, Cut sepProto s proto rest ∧ 47 ∈ rest) ∧
    (Url.parse s = .error .invalidProto ↔ ¬ sepProto <:+: s) ∧
    (Url.parse s = .error .invalidHost ↔
      ∃ proto rest, Cut sepProto s proto rest ∧ 47 ∉ rest) := by
  have hp := parsed_parse s
  generalize Url.parse s = o at hp
  cases hp with
  | noProto hs =>
      refine ⟨iff_of_false (by simp) ?_, iff_of_true rfl hs, iff_of_false (by simp) ?_⟩
      all_goals
        rintro ⟨proto, rest, hcut, -⟩
        exact hs hcut.occurs
  | noHost hs hrest =>
      refine ⟨iff_of_false (by simp) ?_, iff_of_false (by simp) (not_not.mpr hs.occurs),
        iff_of_true rfl ⟨_, _, hs, hrest⟩⟩
      rintro ⟨proto, rest, hcut, hmem⟩
      exact hrest ((hs.unique hcut).2 ▸ hmem)
  | noQuery hs hrest htail | query hs hrest htail =>
      have hmem := (List.singleton_infix_iff _ _).mp hrest.occurs
      refine ⟨iff_of_true ⟨_, rfl⟩ ⟨_, _, hs, hmem⟩,
        iff_of_false (by simp) (not_not.mpr hs.occurs), iff_of_false (by simp) ?_⟩
      rintro ⟨proto, rest, hcut, hno⟩
      exact hno ((hs.unique hcut).2 ▸ hmem)

/-- The form of the parts, and that nothing is lost. -/
theorem parts_of_parse {s : Bytes} {u : Url} (hu : Url.parse s = .ok u) :
    ¬ sepProto <:+: u.proto ∧ 47 ∉ u.host ∧ u.path.head? = some 47 ∧ 63 ∉ u.path ∧
    ((s = u.proto ++ sepProto ++ u.host ++ u.path ∧ u.query = []) ∨
      s = u.proto ++ sepProto ++ u.host ++ u.path ++ [63] ++ u.query) := by
  have hp := hu ▸ parsed_parse s
  cases hp with
  | noQuery hs hrest htail =>
      refine ⟨hs.free (by decide), hrest.not_mem, rfl, htail, .inl ⟨?_, rfl⟩⟩
      rw [hs.1, hrest.1]
      simp
  | query hs hrest htail =>
      refine ⟨hs.free (by decide), hrest.not_mem, head_path htail, htail.not_mem, .inr ?_⟩
      rw [hs.1, hrest.1, List.singleton_append, htail.1]
      simp

/-- Parts that are put together are found again. -/
theorem parse_render {proto host path : Bytes} (hproto : ¬ sepProto <:+: proto)
    (hhost : 47 ∉ host) (hpath : path.head? = some 47) (hquery : 63 ∉ path) (query : Bytes) :
    Url.parse (proto ++ sepProto ++ host ++ path ++ [63] ++ query) =
      .ok ⟨proto, host, path, query⟩ ∧
    Url.parse (proto ++ sepProto ++ host ++ path) = .ok ⟨proto, host, path, []⟩ := by
  obtain ⟨tail, rfl⟩ : ∃ tail, path = 47 :: tail := by
    cases path with
    | nil => cases hpath
    | cons b tail => exact ⟨tail, by rw [Option.some.inj hpath]⟩
  have hcut : ∀ rest, Cut sepProto (proto ++ (sepProto ++ rest)) proto rest :=
    fun _ => cut_of_borderless borderless_sepProto hproto
  constructor
  · have htail : Cut [63] (47 :: (tail ++ 63 :: query)) (47 :: tail) query := cut_singleton hquery
    have hp := parse_of_parsed (.query (hcut _) (cut_singleton hhost) htail)
    simpa using hp
  · have hp := parse_of_parsed (.noQuery (hcut _) (cut_singleton hhost) hquery)
    simpa using hp

/-- **URL**: `url::parse` accepts exactly the strings with a `"://"` and a `'/'` behind the
    first one, and says which of the two is missing otherwise.  The parts it returns
    have the form of their cuts and make up the string; and parts of this form, put
    together with or without a query, are returned again. -/
theorem parse_accepts_its_grammar :
    (∀ s, ((∃ u, Url.parse s = .ok u) ↔ ∃ proto rest, Cut sepProto s proto rest ∧ 47 ∈ rest) ∧
      (Url.parse s = .error .invalidProto ↔ ¬ sepProto <:+: s) ∧
      (Url.parse s = .error .invalidHost ↔
        ∃ proto rest, Cut sepProto s proto rest ∧ 47 ∉ rest)) ∧
    (∀ s u, Url.parse s = .ok u →
      ¬ sepProto <:+: u.proto ∧ 47 ∉ u.host ∧ u.path.head? = some 47 ∧ 63 ∉ u.path ∧
      ((s = u.proto ++ sepProto ++ u.host ++ u.path ∧ u.query = []) ∨
        s = u.proto ++ sepProto ++ u.host ++ u.path ++ [63] ++ u.query)) ∧
    (∀ proto host path query, ¬ sepProto <:+: proto → 47 ∉ host → path.head? = some 47 →
      63 ∉ path →
      Url.parse (proto ++ sepProto ++ host ++ path ++ [63] ++ query) =
        .ok ⟨proto, host, path, query⟩ ∧
      Url.parse (proto ++ sepProto ++ host ++ path) = .ok ⟨proto, host, path, []⟩) :=
  ⟨parse_outcome, fun _ _ => parts_of_parse,
    fun _ _ _ query hproto hhost hpath hquery => parse_render hproto hhost hpath hquery query⟩

/-- `"a:/"` before the separator and `"b?"`, `"c?://"` behind it. -/
theorem parse_accepts_its_grammar_colon :
    Url.parse ([97, 58, 47] ++ sepProto ++ [98, 63] ++ [47, 99] ++ [63] ++ sepProto) =
        .ok ⟨[97, 58, 47], [98, 63], [47, 99], sepProto⟩ ∧
      Url.parse ([97, 58, 47] ++ sepProto ++ [98, 63] ++ [47, 99]) =
        .ok ⟨[97, 58, 47], [98, 63], [47, 99], []⟩ :=
  parse_accepts_its_grammar.2.2 _ _ _ _ (by decide) (by decide) rfl (by decide)

/-! ## The request line -/

/-- `t` is what follows the host in `s`. -/
def Target (s t : Bytes) : Prop :=
  ∃ proto rest host tail, Cut sepProto s proto rest ∧ Cut [47] rest host tail ∧ t = 47 :: tail

/-- `METHOD t HTTP/1.0`. -/
def requestLine (method : HttpMethod) (t : Bytes) : Bytes :=
  toStr method ++ [32] ++ t ++ [32, 72, 84, 84, 80, 47, 49, 46, 48]

/-- What `build_msg` writes between the method and the version. -/
def sent (u : Url) : Bytes := u.path ++ (if u.query ≠ [] then 63 :: u.query else [])

/-- Everything behind the request line. -/
def afterLine (mHeaders : List (Bytes × Bytes)) (u : Url) (method : HttpMethod) (body : Bytes) :
    Bytes :=
  [72, 111, 115, 116, 58] ++ u.host ++ crlf
    ++ mHeaders.flatMap (fun h => h.1 ++ [58, 32] ++ h.2 ++ crlf)
    ++ (if body ≠ [] ∨ method = .post then lengthKey ++ decimal body.length ++ crlf else [])
    ++ crlf
    ++ body

theorem buildMsg_eq (mHeaders : List (Bytes × Bytes)) (u : Url) (method : HttpMethod)
    (body : Bytes) :
    buildMsg mHeaders u method body =
      requestLine method (sent u) ++ (crlf ++ afterLine mHeaders u method body) := by
  simp only [buildMsg, requestLine, sent, afterLine, versionHost, crlf, List.append_assoc,
    List.cons_append, List.nil_append]

/-- The line of `build_msg` is that of the target, unless the target ends with its only
    `'?'`, which is left out. -/
theorem sent_cases {s : Bytes} {u : Url} (hu : Url.parse s = .ok u) :
    ∃ t, Target s t ∧
      ((sent u = t ∧ ¬ ∃ path, t = path ++ [63] ∧ 63 ∉ path) ∨
        (t = sent u ++ [63] ∧ 63 ∉ sent u)) := by
  have hp := hu ▸ parsed_parse s
  cases hp with
  | @noQuery proto rest host tail hs hrest htail =>
      refine ⟨_, ⟨_, _, _, _, hs, hrest, rfl⟩, .inl ⟨?_, ?_⟩⟩
      · exact List.append_nil _
      · rintro ⟨path, hpath, -⟩
        exact htail (hpath ▸ List.mem_append_right path (List.mem_singleton.mpr rfl))
  | @query proto rest host tail path query hs hrest htail =>
      refine ⟨_, ⟨_, _, _, _, hs, hrest, rfl⟩, ?_⟩
      cases query with
      | nil =>
          -- `"?"` with nothing behind it: an empty query is not written
          have hsent : sent ⟨proto, host, path, []⟩ = path := List.append_nil _
          rw [hsent]
          exact .inr ⟨htail.1, htail.not_mem⟩
      | cons b query =>
          refine .inl ⟨htail.1.symm, ?_⟩
          rintro ⟨path', hpath', hno⟩
          have hcut : Cut [63] (path' ++ [63]) path' [] := cut_singleton hno
          cases (htail.unique (hpath' ▸ hcut)).2

end CoioHttpUrl
