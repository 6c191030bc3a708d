import Coio.HttpUrlProofs

/-! # Reading back what `build_msg` writes

    A request is a head of lines, a blank line and the body.  The lines of the head
    are not empty and have no line end inside, so the FIRST blank line of the message
    is the one that was put behind the head, whatever the body contains.

    Behind the request line the lines are `Host`, the entries of the header map in
    the order of its keys, and for a `post` the length of the body in decimal. -/

namespace CoioHttpDecode

open CoioSearch CoioHttpParser CoioHttpRead CoioHttpMessage CoioHttpUrl

/-! ## Decimal numerals -/

theorem digit_byte {d : Nat} (hd : d < 10) :
    UInt8.ofNat (Nat.digitChar d).toNat = UInt8.ofNat (48 + d) := by
  rw [Nat.toNat_digitChar_of_lt_ten hd]

theorem decimal_of_lt {n : Nat} (hn : n < 10) : decimal n = [UInt8.ofNat (48 + n)] := by
  unfold decimal
  rw [Nat.toDigits_of_lt_base hn, List.map_singleton, digit_byte hn]

/-- The last digit comes off the end. -/
theorem decimal_of_le {n : Nat} (hn : 10 ≤ n) :
    decimal n = decimal (n / 10) ++ [UInt8.ofNat (48 + n % 10)] := by
  unfold decimal
  rw [Nat.toDigits_of_base_le (by decide) hn, List.map_append, List.map_singleton,
    digit_byte (Nat.mod_lt n (by decide))]

theorem toNat_digit {d : Nat} (hd : d < 10) : (UInt8.ofNat (48 + d)).toNat = 48 + d :=
  Nat.mod_eq_of_lt (by omega)

theorem isDigit_digit {d : Nat} (hd : d < 10) : isDigit (UInt8.ofNat (48 + d)) = true := by
  unfold isDigit
  rw [Bool.and_eq_true, decide_eq_true_eq, decide_eq_true_eq, UInt8.le_iff_toNat_le,
    UInt8.le_iff_toNat_le, toNat_digit hd]
  exact ⟨Nat.le_add_right .., by show 48 + d ≤ 57; omega⟩

theorem digitsValue_snoc (ds : Bytes) (c : UInt8) :
    digitsValue (ds ++ [c]) = 10 * digitsValue ds + (c.toNat - 48) := by
  unfold digitsValue
  rw [List.foldl_append]
  rfl

/-- **NUMERAL**: digits only, and they denote the number. -/
theorem decimal_spec (n : Nat) :
    decimal n ≠ [] ∧ (∀ c ∈ decimal n, isDigit c = true) ∧ digitsValue (decimal n) = n := by
  -- the last digit comes off, so the induction goes from `n / 10` to `n`
  induction n using Nat.strongRecOn with
  | ind n ih =>
      rcases Nat.lt_or_ge n 10 with hlt | hge
      · rw [decimal_of_lt hlt]
        refine ⟨List.cons_ne_nil _ _, ?_, ?_⟩
        · intro c hc
          rw [List.mem_singleton.mp hc]
          exact isDigit_digit hlt
        · have hval := digitsValue_snoc [] (UInt8.ofNat (48 + n))
          rw [toNat_digit hlt] at hval
          rw [List.nil_append] at hval
          rw [hval, Nat.add_sub_cancel_left]
          exact Nat.zero_add n
      · obtain ⟨-, hdigits, hval⟩ := ih (n / 10) (by omega)
        have hmod : n % 10 < 10 := Nat.mod_lt n (by decide)
        rw [decimal_of_le hge]
        refine ⟨by simp, ?_, ?_⟩
        · intro c hc
          rcases List.mem_append.mp hc with hc | hc
          · exact hdigits c hc
          · rw [List.mem_singleton.mp hc]
            exact isDigit_digit hmod
        · rw [digitsValue_snoc, hval, toNat_digit hmod, Nat.add_sub_cancel_left]
          exact Nat.div_add_mod n 10

/-! ## The header map -/

/-- The map after the calls of `add_header`. -/
def headerMap (adds : List (Bytes × Bytes)) : List (Bytes × Bytes) :=
  adds.foldl (fun m h => addHeader h.1 h.2 m) []

/-- In the order of the keys, each of which occurs once. -/
def KeyOrder (m : List (Bytes × Bytes)) : Prop := m.Pairwise fun h h' => h.1 < h'.1

theorem key_of_mem_addHeader {k v : Bytes} {m : List (Bytes × Bytes)} {h : Bytes × Bytes}
    (hh : h ∈ addHeader k v m) : h.1 = k ∨ h ∈ m := by
  induction m with
  | nil => exact .inl (congrArg Prod.fst (List.mem_singleton.mp hh))
  | cons h' rest ih =>
      unfold addHeader at hh
      split at hh
      · rcases List.mem_cons.mp hh with rfl | hh
        · exact .inl rfl
        · exact .inr (List.mem_cons_of_mem _ hh)
      · split at hh
        · rcases List.mem_cons.mp hh with rfl | hh
          · exact .inl rfl
          · exact .inr hh
        · rcases List.mem_cons.mp hh with rfl | hh
          · exact .inr List.mem_cons_self
          · exact (ih hh).imp_right (List.mem_cons_of_mem _)

theorem keyOrder_addHeader (k v : Bytes) {m : List (Bytes × Bytes)} (hm : KeyOrder m) :
    KeyOrder (addHeader k v m) := by
  induction m with
  | nil => exact List.pairwise_singleton _ _
  | cons h' rest ih =>
      obtain ⟨hall, hrest⟩ := List.pairwise_cons.mp hm
      unfold addHeader
      split
      · -- the key is there, and its value is replaced
        rename_i heq
        exact List.pairwise_cons.mpr ⟨fun h hh => heq ▸ hall h hh, hrest⟩
      · rename_i hne
        split
        · -- it goes in front of the first larger one
          rename_i hlt
          refine List.pairwise_cons.mpr ⟨fun h hh => ?_, hm⟩
          rcases List.mem_cons.mp hh with rfl | hh
          · exact hlt
          · exact List.lt_trans hlt (hall h hh)
        · rename_i hnlt
          refine List.pairwise_cons.mpr ⟨fun h hh => ?_, ih hrest⟩
          rcases key_of_mem_addHeader hh with hk | hh
          · rw [hk]
            exact Std.lt_of_le_of_ne (List.not_lt.mp hnlt) (Ne.symm hne)
          · exact hall h hh

/-- **MAP**: it is in key order after any calls. -/
theorem keyOrder_headerMap (adds : List (Bytes × Bytes)) : KeyOrder (headerMap adds) := by
  unfold headerMap
  induction adds using List.reverseRecOn with
  | nil => exact List.Pairwise.nil
  | append_singleton adds h ih =>
      rw [List.foldl_append]
      exact keyOrder_addHeader h.1 h.2 ih

/-! ## Lines -/

/-- The lines between the line ends. -/
def splitLines : Bytes → List Bytes
  | [] => [[]]
  | [b] => [[b]]
  | b :: c :: rest =>
      if b = 13 ∧ c = 10 then [] :: splitLines rest
      else
        match splitLines (c :: rest) with
        | [] => [[b]]
        | l :: ls => (b :: l) :: ls

/-- The lines with a line end between each two. -/
def joinLines (ls : List Bytes) : Bytes := crlf.intercalate ls

section Lines

variable {l : Bytes} {ls : List Bytes}

theorem joinLines_cons (l l' : Bytes) (ls : List Bytes) :
    joinLines (l :: l' :: ls) = l ++ (crlf ++ joinLines (l' :: ls)) := by
  simp [joinLines, List.intercalate]

theorem joinLines_singleton (l : Bytes) : joinLines [l] = l := by
  simp [joinLines, List.intercalate]

theorem initial_joinLines (l : Bytes) (ls : List Bytes) : l <+: joinLines (l :: ls) := by
  cases ls with
  | nil => rw [joinLines_singleton]
  | cons l' ls => exact joinLines_cons l l' ls ▸ List.prefix_append ..

theorem flatMap_crlf (l : Bytes) (ls : List Bytes) :
    (l :: ls).flatMap (· ++ crlf) = joinLines (l :: ls) ++ crlf := by
  induction ls generalizing l with
  | nil => rw [joinLines_singleton, List.flatMap_singleton]
  | cons l' ls ih =>
      rw [List.flatMap_cons, ih, joinLines_cons]
      simp

theorem splitLines_plain (hl : 13 ∉ l) : splitLines l = [l] := by
  induction l with
  | nil => rfl
  | cons b l ih =>
      obtain ⟨hb, hl⟩ := not_or.mp (List.mem_cons.not.mp hl)
      cases l with
      | nil => rfl
      | cons c l =>
          unfold splitLines
          rw [if_neg fun h => hb h.1.symm, ih hl]

theorem splitLines_crlf (hl : 13 ∉ l) (rest : Bytes) :
    splitLines (l ++ (crlf ++ rest)) = l :: splitLines rest := by
  induction l with
  | nil => rfl
  | cons b l ih =>
      obtain ⟨hb, hl⟩ := not_or.mp (List.mem_cons.not.mp hl)
      have hih := ih hl
      cases l with
      | nil =>
          show (if b = 13 ∧ (13 : UInt8) = 10 then _ else _) = _
          rw [if_neg fun h => hb h.1.symm]
          rfl
      | cons c l =>
          show (if b = 13 ∧ c = 10 then _ else _) = _
          rw [if_neg fun h => hb h.1.symm]
          show (match splitLines (c :: l ++ (crlf ++ rest)) with
            | [] => [[b]]
            | l :: ls => (b :: l) :: ls) = _
          rw [hih]

theorem splitLines_joinLines (hls : ∀ l' ∈ l :: ls, 13 ∉ l') :
    splitLines (joinLines (l :: ls)) = l :: ls := by
  induction ls generalizing l with
  | nil =>
      rw [joinLines_singleton]
      exact splitLines_plain (hls l List.mem_cons_self)
  | cons l' ls ih =>
      rw [joinLines_cons, splitLines_crlf (hls l List.mem_cons_self),
        ih fun l'' hl'' => hls l'' (List.mem_cons_of_mem l hl'')]

/-- A line end and a line that is not empty make no blank line. -/
theorem not_dcrlf_crlf {s : Bytes} (hs : s.head? ≠ some 13) :
    ¬ dcrlf <+: 13 :: 10 :: s ∧ ¬ dcrlf <+: 10 :: s := by
  constructor
  · rintro ⟨t, ht⟩
    cases ht
    exact hs rfl
  · rintro ⟨t, ht⟩
    cases ht

/-- **BLANK LINE**: behind lines that are not empty, the first blank line is the one that
    was put there. -/
theorem cut_joinLines (hls : ∀ l' ∈ l :: ls, 13 ∉ l' ∧ l' ≠ []) (body : Bytes) :
    Cut dcrlf (joinLines (l :: ls) ++ (dcrlf ++ body)) (joinLines (l :: ls)) body := by
  induction ls generalizing l with
  | nil =>
      have hcut := (cut_nil dcrlf body).append (hls l List.mem_cons_self).1
      rw [List.append_nil] at hcut
      rw [joinLines_singleton]
      exact hcut
  | cons l' ls ih =>
      have hcut := ih fun l'' hl'' => hls l'' (List.mem_cons_of_mem l hl'')
      have hhead : (joinLines (l' :: ls) ++ (dcrlf ++ body)).head? ≠ some 13 := by
        obtain ⟨hno, hne⟩ := hls l' (List.mem_cons_of_mem l List.mem_cons_self)
        obtain ⟨r, hr⟩ := initial_joinLines l' ls
        cases l' with
        | nil => exact absurd rfl hne
        | cons b l' =>
            rw [← hr]
            exact fun hb => hno (Option.some.inj hb ▸ List.mem_cons_self)
      rw [joinLines_cons, List.append_assoc, List.append_assoc]
      -- the line end behind `l` is not half of a blank line, since `l'` is not empty
      obtain ⟨hno, hno'⟩ := not_dcrlf_crlf hhead
      exact ((hcut.cons hno').cons hno).append (hls l List.mem_cons_self).1

end Lines

/-! ## The head of a request -/

/-- A line is cut at its first colon, and one blank behind the colon is dropped. -/
def decodeLine (line : Bytes) : Option (Bytes × Bytes) :=
  (find line [58] 0).map fun i =>
    (line.take i, if (line.drop (i + 1)).head? = some 32 then line.drop (i + 2)
      else line.drop (i + 1))

theorem decodeLine_eq {k v : Bytes} (hk : 58 ∉ k) :
    decodeLine (k ++ 58 :: v) = some (k, if v.head? = some 32 then v.drop 1 else v) := by
  have hcut : Cut [58] (k ++ 58 :: v) k v := cut_singleton hk
  have hdrop : (k ++ 58 :: v).drop (k.length + 1) = v := hcut.drop_add
  have hdrop' : (k ++ 58 :: v).drop (k.length + 2) = v.drop 1 := by
    conv => rhs; rw [← hdrop, List.drop_drop]
  unfold decodeLine
  rw [find_of_cut hcut, Option.map_some, hcut.take, hdrop, hdrop']

/-- `"Host"`. -/
def hostName : Bytes := [72, 111, 115, 116]

/-- `"Content-Length"`. -/
def lengthName : Bytes := [67, 111, 110, 116, 101, 110, 116, 45, 76, 101, 110, 103, 116, 104]

/-- The lines of the head behind the request line. -/
def fieldLines (mHeaders : List (Bytes × Bytes)) (u : Url) (method : HttpMethod) (body : Bytes) :
    List Bytes :=
  (hostName ++ 58 :: u.host) :: mHeaders.map (fun h => h.1 ++ 58 :: 32 :: h.2)
    ++ (if method = .post then [lengthName ++ 58 :: 32 :: decimal body.length] else [])

/-- A message is its lines, a blank line and the body. -/
theorem buildMsg_eq_lines {mHeaders : List (Bytes × Bytes)} {u : Url} {method : HttpMethod}
    {body : Bytes} (hbody : method ≠ .post → body = []) :
    buildMsg mHeaders u method body =
      joinLines (requestLine method (sent u) :: fieldLines mHeaders u method body)
        ++ (dcrlf ++ body) := by
  -- `build_msg` tests the body as well, but only a `post` has one
  have hcond : (body ≠ [] ∨ method = .post) ↔ method = .post := by
    refine ⟨fun h => h.elim (fun hne => ?_) id, .inr⟩
    by_contra hpost
    exact hne (hbody hpost)
  have hdcrlf : dcrlf ++ body = crlf ++ (crlf ++ body) := rfl
  rw [hdcrlf, ← List.append_assoc, ← flatMap_crlf, buildMsg_eq]
  unfold afterLine fieldLines
  simp only [hcond, List.flatMap_cons, List.flatMap_append, List.flatMap_map, List.append_assoc]
  split <;> simp [hostName, lengthKey, lengthName]

/-- No line end. -/
def Plain (bs : Bytes) : Prop := 13 ∉ bs ∧ 10 ∉ bs

instance (bs : Bytes) : Decidable (Plain bs) :=
  inferInstanceAs (Decidable (13 ∉ bs ∧ 10 ∉ bs))

/-- What a URL and a header map must not contain. -/
structure Clean (mHeaders : List (Bytes × Bytes)) (u : Url) : Prop where
  host : Plain u.host ∧ 32 ∉ u.host
  path : Plain u.path ∧ 32 ∉ u.path
  query : Plain u.query ∧ 32 ∉ u.query
  headers : ∀ h ∈ mHeaders, Plain h.1 ∧ 58 ∉ h.1 ∧ Plain h.2

section Decode

variable {mHeaders : List (Bytes × Bytes)} {u : Url} {method : HttpMethod} {body : Bytes}

theorem requestLine_plain (hc : Clean mHeaders u) : 13 ∉ requestLine method (sent u) := by
  have hsent : 13 ∉ sent u := by
    unfold sent
    split
    · simp [hc.path.1.1, hc.query.1.1]
    · simp [hc.path.1.1]
  unfold requestLine
  cases method <;> simp [toStr, hsent]

theorem decimal_plain (n : Nat) : 13 ∉ decimal n := fun h =>
  absurd ((decimal_spec n).2.1 13 h) (by decide)

/-- No line of the head is empty or has a line end inside. -/
theorem fieldLines_plain (method : HttpMethod) (body : Bytes) (hc : Clean mHeaders u) :
    ∀ l ∈ requestLine method (sent u) :: fieldLines mHeaders u method body, 13 ∉ l ∧ l ≠ [] := by
  intro l hl
  unfold fieldLines at hl
  rcases List.mem_cons.mp hl with rfl | hl
  · exact ⟨requestLine_plain hc, by simp [requestLine]⟩
  rcases List.mem_append.mp hl with hl | hl
  · rcases List.mem_cons.mp hl with rfl | hl
    · exact ⟨by simp [hostName, hc.host.1.1], by simp⟩
    · obtain ⟨h, hh, rfl⟩ := List.mem_map.mp hl
      obtain ⟨hkey, -, hval⟩ := hc.headers h hh
      exact ⟨by simp [hkey.1, hval.1], by simp⟩
  · split at hl
    · rw [List.mem_singleton.mp hl]
      exact ⟨by simp [lengthName, decimal_plain], by simp⟩
    · cases hl

/-- The lines behind the request line are the fields. -/
theorem decode_fieldLines (hc : Clean mHeaders u) :
    (fieldLines mHeaders u method body).map decodeLine =
      (some (hostName, u.host) :: mHeaders.map some)
        ++ (if method = .post then [some (lengthName, decimal body.length)] else []) := by
  have hhost : decodeLine (hostName ++ 58 :: u.host) = some (hostName, u.host) := by
    rw [decodeLine_eq (by decide), if_neg]
    -- no blank is written behind `Host:`, and the host does not begin with one
    intro hhead
    exact hc.host.2 (List.mem_of_mem_head? hhead)
  have hheaders : ∀ h ∈ mHeaders, decodeLine (h.1 ++ 58 :: 32 :: h.2) = some h := by
    intro h hh
    rw [decodeLine_eq (hc.headers h hh).2.1]
    rfl
  have hlength : decodeLine (lengthName ++ 58 :: 32 :: decimal body.length) =
      some (lengthName, decimal body.length) := by
    rw [decodeLine_eq (by decide)]
    rfl
  unfold fieldLines
  rw [List.map_append, List.map_cons, hhost, List.map_map]
  congr 1
  · congr 1
    exact List.map_congr_left hheaders
  · split
    · rw [List.map_singleton, hlength]
    · rfl

end Decode

/-- **DECODE**: cut at its first blank line, a request gives its body, and the lines of its
    head behind the request line are the host, the header map in key order and, for a
    `post` and no other method, the length of the body in decimal. -/
theorem buildMsg_can_be_decoded (adds : List (Bytes × Bytes)) (u : Url) (method : HttpMethod)
    (body : Bytes) (hc : Clean (headerMap adds) u) (hbody : method ≠ .post → body = []) :
    ∃ head, Cut dcrlf (buildMsg (headerMap adds) u method body) head body ∧
      (splitLines head).tail.map decodeLine =
        (some (hostName, u.host) :: (headerMap adds).map some)
          ++ (if method = .post then [some (lengthName, decimal body.length)] else []) ∧
      KeyOrder (headerMap adds) ∧
      (∀ c ∈ decimal body.length, isDigit c = true) ∧
      digitsValue (decimal body.length) = body.length := by
  have hplain := fieldLines_plain method body hc
  obtain ⟨-, hdigits, hval⟩ := decimal_spec body.length
  refine ⟨_, buildMsg_eq_lines hbody ▸ cut_joinLines hplain body, ?_, keyOrder_headerMap adds,
    hdigits, hval⟩
  rw [splitLines_joinLines fun l hl => (hplain l hl).1]
  exact decode_fieldLines hc

/-- A `post` whose body begins with a blank line. -/
theorem buildMsg_can_be_decoded_post :
    ∃ head, Cut dcrlf (buildMsg (headerMap [([98], [32]), ([97], [58])]) ⟨[], [104], [47], []⟩ .post
        (dcrlf ++ [120])) head (dcrlf ++ [120]) ∧
      (splitLines head).tail.map decodeLine =
        [some (hostName, [104]), some ([97], [58]), some ([98], [32]), some (lengthName, [53])] := by
  obtain ⟨head, hcut, hlines, -⟩ := buildMsg_can_be_decoded [([98], [32]), ([97], [58])]
    ⟨[], [104], [47], []⟩ .post (dcrlf ++ [120])
    ⟨by decide, by decide, by decide, by decide⟩ (fun h => absurd rfl h)
  exact ⟨head, hcut, hlines.trans (by decide)⟩

end CoioHttpDecode
