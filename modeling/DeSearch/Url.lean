import DeSearch.Paging

/-!
# Keywords and page in a URL

`go_search` gets a path `/query/…/page/…`. It first undoes the percent encoding of the whole path
(`url_decode`) and then looks for the first `/query/` and the first `/page/`. The encoding of the
keywords is undone exactly (`urlDecode_of_encodes`), but what the keywords say is by then part of
the text that is searched for `/page/`.

* `url_recovers_iff`: keywords and page are recovered exactly if none of the pieces between the
  slashes of the keywords is `page`.
-/

namespace DeSearch

open JSON

/-! ## Percent encoding -/

/-- A text and an encoding of it for a URL: every byte stands for itself, is escaped in hexadecimal
of either case, or is a space that is written as `+`. -/
inductive Encodes : Bytes → Bytes → Prop where
  | nil : Encodes [] []
  | plain {c : Byte} {s enc : Bytes} (hpercent : c ≠ ch '%') (hplus : c ≠ ch '+')
      (h : Encodes s enc) : Encodes (c :: s) (c :: enc)
  | plus {s enc : Bytes} (h : Encodes s enc) : Encodes (ch ' ' :: s) (ch '+' :: enc)
  | escaped {c a b : Byte} {x y : Nat} {s enc : Bytes} (ha : hexVal a = some x)
      (hb : hexVal b = some y) (hc : c.val = 16 * x + y) (h : Encodes s enc) :
      Encodes (c :: s) (ch '%' :: a :: b :: enc)

theorem Encodes.append {s enc s' enc' : Bytes} (h : Encodes s enc) (h' : Encodes s' enc') :
    Encodes (s ++ s') (enc ++ enc') := by
  induction h with
  | nil => exact h'
  | plain hpercent hplus _ ih => exact .plain hpercent hplus ih
  | plus _ ih => exact .plus ih
  | escaped ha hb hc _ ih => exact .escaped ha hb hc ih

/-- A text without percent and plus signs is its own encoding. -/
theorem encodes_self {s : Bytes} (h : ∀ c ∈ s, c ≠ ch '%' ∧ c ≠ ch '+') : Encodes s s := by
  induction s with
  | nil => exact .nil
  | cons c s ih =>
      obtain ⟨hc, hs⟩ := List.forall_mem_cons.1 h
      exact .plain hc.1 hc.2 (ih hs)

theorem isDigit_or_minus_ne : ∀ c : Byte, isDigit c ∨ c = ch '-' → c ≠ ch '%' ∧ c ≠ ch '+' := by
  decide +kernel

theorem hexVal_nondelimiter : ∀ a : Byte, hexVal a ≠ none →
    a ≠ 0 ∧ ¬isSpace a ∧ a ≠ ch '-' ∧ a ≠ ch '+' := by
  decide +kernel

/-- `sscanf` of two hexadecimal digits. -/
theorem scanHex_pair {a b : Byte} {x y : Nat} (ha : hexVal a = some x) (hb : hexVal b = some y) :
    scanHex [a, b] = some ((16 * x + y : Nat) : Int) := by
  obtain ⟨ha₀, hspace, hminus, hplus⟩ := hexVal_nondelimiter a (by simp [ha])
  obtain ⟨hb₀, -⟩ := hexVal_nondelimiter b (by simp [hb])
  have hcut : (cString [a, b]).dropWhile isSpace = [a, b] := by
    simp [cString, ha₀, hb₀, hspace]
  simp [scanHex, hcut, splitSign, hminus, hplus, ha, hb]

/-- `url_decode` gives the text back, whatever `ii` holds from before. -/
theorem urlDecode_of_encodes {s enc : Bytes} (h : Encodes s enc) (ii : Option Int) :
    urlDecode 0 ii enc = some s := by
  induction h generalizing ii with
  | nil => rfl
  | plain hpercent hplus _ ih => rw [urlDecode, if_neg hpercent, ih, if_neg hplus, Option.map_some]
  | plus _ ih =>
      rw [urlDecode, if_neg (by decide), ih, if_pos rfl, Option.map_some]
  | @escaped c a b x y s enc ha hb hc _ ih =>
      have hbyte : Fin.ofNat 256 (((16 * x + y : Nat) : Int) % 256).toNat = c := by
        apply Fin.ext
        have hlt := c.isLt
        simp only [Fin.ofNat_eq_cast, Fin.val_natCast]
        omega
      rw [urlDecode, if_pos rfl]
      simp only [List.take_succ_cons, List.take_zero, scanHex_pair ha hb, Option.some_or, hbyte]
      rw [urlDecode, urlDecode, ih, Option.map_some]

/-! ## The split -/

/-- The first place at which a text has a given part. -/
theorem findSub_eq_some {needle s : Bytes} {i : Nat} (hne : needle ≠ []) :
    findSub needle s = some i ↔ needle <+: s.drop i ∧ ∀ j < i, ¬needle <+: s.drop j := by
  induction s generalizing i with
  | nil => simp [findSub, hne]
  | cons c s ih =>
      rw [findSub]
      by_cases hhere : needle <+: c :: s
      · rw [if_pos hhere]
        constructor
        · intro h
          cases h
          exact ⟨hhere, fun j hj => absurd hj (Nat.not_lt_zero j)⟩
        · intro h
          by_contra hi
          have hpos : 0 < i := Nat.pos_of_ne_zero fun hz => hi (by rw [hz])
          exact h.2 0 hpos hhere
      · rw [if_neg hhere, Option.map_eq_some_iff]
        constructor
        · intro h
          obtain ⟨k, hk, rfl⟩ := h
          obtain ⟨hat, hbefore⟩ := ih.1 hk
          refine ⟨hat, fun j hj => ?_⟩
          cases j with
          | zero => exact hhere
          | succ j => exact hbefore j (Nat.lt_of_succ_lt_succ hj)
        · intro h
          cases i with
          | zero => exact absurd h.1 hhere
          | succ i =>
              refine ⟨i, ih.2 ⟨h.1, fun j hj => ?_⟩, rfl⟩
              exact h.2 (j + 1) (Nat.succ_lt_succ hj)

/-- The decoded path of a search. -/
def pathText (keywords digits : Bytes) : Bytes :=
  ascii "/query/" ++ keywords ++ ascii "/page/" ++ digits

/-- One of the pieces between the slashes of the keywords is `page`. -/
def PageInside (keywords : Bytes) : Prop :=
  ascii "/page/" <:+: ch '/' :: keywords ++ [ch '/']

instance (keywords : Bytes) : Decidable (PageInside keywords) :=
  inferInstanceAs (Decidable (_ <:+: _))

theorem drop_pathText (keywords digits : Bytes) : (pathText keywords digits).drop 6 =
    (ch '/' :: keywords ++ [ch '/']) ++ (ascii "page/" ++ digits) := by
  simp only [pathText, List.append_assoc]
  rfl

/-- No `/page/` starts inside of `/query`. -/
theorem six_le_of_page {keywords digits : Bytes} {j : Nat}
    (h : ascii "/page/" <+: (pathText keywords digits).drop j) : 6 ≤ j := by
  by_contra hlt
  have hhead : pathText keywords digits =
      ascii "/query/" ++ (keywords ++ ascii "/page/" ++ digits) := by
    simp [pathText]
  rw [hhead] at h
  interval_cases j <;> exact absurd h (by simp [ascii, ch])

/-- The slash in front of the right `page/` is none of the four letters of an earlier one. -/
theorem page_ends {keywords digits w : Bytes} {u : Nat} (hu : u < keywords.length + 1)
    (hw : ascii "/page/" ++ w =
      ((ch '/' :: keywords ++ [ch '/']) ++ (ascii "page/" ++ digits)).drop u) :
    u + 6 ≤ keywords.length + 2 := by
  by_contra hover
  obtain ⟨d, hd⟩ : ∃ d, keywords.length + 1 = u + d := ⟨keywords.length + 1 - u, by omega⟩
  have hslash : ((ch '/' :: keywords ++ [ch '/']) ++ (ascii "page/" ++ digits))[keywords.length +
      1]? = some (ch '/') := by
    simp
  have hletter : (ascii "/page/" ++ w)[d]? = some (ch '/') := by
    rw [hw, List.getElem?_drop, ← hd, hslash]
  have hlow : 1 ≤ d := by omega
  have hhigh : d ≤ 4 := by omega
  interval_cases d <;> exact absurd hletter (by simp [ascii, ch])

/-- A `/page/` in front of the right one. -/
theorem pageInside_iff {keywords digits : Bytes} :
    (∃ j < 7 + keywords.length, ascii "/page/" <+: (pathText keywords digits).drop j) ↔
      PageInside keywords := by
  constructor
  · intro h
    obtain ⟨j, hj, hat⟩ := h
    obtain ⟨u, rfl⟩ := Nat.exists_eq_add_of_le (six_le_of_page hat)
    rw [← List.drop_drop, drop_pathText] at hat
    obtain ⟨w, hw⟩ := hat
    have hend := page_ends (by omega) hw
    have hpre : ascii "/page/" <+: (ch '/' :: keywords ++ [ch '/']).drop u := by
      rw [List.drop_append_of_le_length (by simp; omega)] at hw
      apply List.prefix_of_prefix_length_le ⟨w, hw⟩ (List.prefix_append _ _)
      simp [ascii]
      omega
    exact hpre.isInfix.trans (List.drop_suffix u _).isInfix
  · intro h
    obtain ⟨u, v, huv⟩ := h
    have hlen := congrArg List.length huv
    simp [ascii] at hlen
    refine ⟨6 + u.length, by omega, ?_⟩
    rw [← List.drop_drop, drop_pathText, ← huv]
    simp

theorem findSub_query (keywords digits : Bytes) :
    findSub (ascii "/query/") (pathText keywords digits) = some 0 := by
  apply (findSub_eq_some (by decide)).2
  refine ⟨?_, fun j hj => absurd hj (Nat.not_lt_zero j)⟩
  simp [pathText]

theorem length_query_append (keywords : Bytes) :
    (ascii "/query/" ++ keywords).length = 7 + keywords.length := by
  rw [List.length_append]
  rfl

theorem drop_pathText_page (keywords digits : Bytes) :
    (pathText keywords digits).drop (7 + keywords.length) = ascii "/page/" ++ digits := by
  rw [pathText, List.append_assoc, ← length_query_append, List.drop_left]

/-- Without a `page` among their pieces, the keywords are cut out as they are. -/
theorem splitPath_pathText {keywords : Bytes} (h : ¬PageInside keywords) (digits : Bytes) :
    splitPath (pathText keywords digits) = some (keywords, digits) := by
  have hpage : findSub (ascii "/page/") (pathText keywords digits) =
      some (7 + keywords.length) := by
    apply (findSub_eq_some (by decide)).2
    rw [drop_pathText_page]
    refine ⟨List.prefix_append _ _, fun j hj hat => ?_⟩
    exact h (pageInside_iff.1 ⟨j, hj, hat⟩)
  have hquery : (pathText keywords digits).take (7 + keywords.length) =
      ascii "/query/" ++ keywords := by
    rw [pathText, List.append_assoc, ← length_query_append, List.take_left]
  simp only [splitPath, findSub_query, hpage, Option.bind_eq_bind, Option.bind_some, List.drop_zero,
    hquery, drop_pathText_page]
  simp [ascii]

/-- With one, they are cut off there. -/
theorem length_lt_of_pageInside {keywords digits k q : Bytes} (h : PageInside keywords)
    (hsplit : splitPath (pathText keywords digits) = some (k, q)) :
    k.length < keywords.length := by
  rw [splitPath, findSub_query, Option.bind_eq_bind, Option.bind_some] at hsplit
  obtain ⟨pos2, hpos, hcut⟩ := Option.bind_eq_some_iff.1 hsplit
  have hbefore := ((findSub_eq_some (by decide)).1 hpos).2
  have hpos2 : pos2 < 7 + keywords.length := by
    obtain ⟨j, hj, hat⟩ := pageInside_iff.2 h
    by_contra hle
    exact hbefore j (by omega) hat
  dsimp only at hcut
  split_ifs at hcut with hlen
  cases hcut
  simp only [List.drop_zero, List.length_take, List.length_drop] at hlen ⊢
  omega

/-! ## The search for the keywords and the page -/

theorem goSearch_of_urlDecode (R : Runtime) (client : Client) {path decoded : Bytes}
    (h : urlDecode 0 none path = some decoded) (nodes : List (Bytes × Bytes)) :
    goSearch R client path nodes =
      match splitPath decoded with
      | none => (.error .exception, client)
      | some (keywords, qPage) =>
          searchFor R indexPoolMax client keywords (wrapInt (strtol qPage)) nodes := by
  cases hsplit : splitPath decoded with
  | none => simp only [goSearch, goSearchAt, h, hsplit]
  | some cut => simp only [goSearch, goSearchAt, h, hsplit]

theorem composeQuery_injective {keywords keywords' : Bytes} {page page' : Int}
    (h : composeQuery keywords page = composeQuery keywords' page') : keywords = keywords' := by
  obtain ⟨rest, hrest⟩ := composeQuery_head keywords page
  obtain ⟨rest', hrest'⟩ := composeQuery_head keywords' page'
  rw [hrest, hrest'] at h
  have hparse := congrArg (parseString .plain []) (List.append_cancel_left h)
  rw [parseString_escape, parseString_escape] at hparse
  exact (Prod.mk.inj (Option.some.inj hparse)).1

/-- The request that is sent shows the keywords. -/
theorem keywords_of_request {R : Runtime} {client client' : Client} {keywords keywords' : Bytes}
    {page page' : Int} {nodes : List (Bytes × Bytes)} {answer : Bytes}
    (h : searchFor R indexPoolMax client keywords page nodes =
      (.ok (composeQuery keywords' page', answer), client')) : keywords = keywords' :=
  (composeQuery_injective (searchFor_eq_ok.1 h).1).symm

/-- Some nodes answer every search. -/
theorem exists_searchFor {page : Int} (h : 1 ≤ page) : ∃ nodes, ∀ keywords, ∃ answer client',
    searchFor sampleRuntime indexPoolMax .init keywords page nodes =
      (.ok (composeQuery keywords (realPage indexPoolMax page), answer), client') := by
  obtain ⟨node, answer, hnode⟩ : ∃ node answer, Answers sampleRuntime node answer :=
    ⟨(sampleNode, unsignedReply (ascii "a")), _, hasPort_sampleNode, _, by simp,
      carries_unsignedReply (by decide +kernel)⟩
  have hnodes : List.Forall₂ (Answers sampleRuntime) [node, node, node, node]
      ((List.range' 1 indexPoolMax).map fun _ => answer) :=
    .cons hnode (.cons hnode (.cons hnode (.cons hnode .nil)))
  obtain ⟨r, p, -, hp, hp', hpage⟩ := @exists_page_eq page page.toNat h (by omega)
  have hat := Network.vectorAt_pagePos hp hp' hpage fun _ => answer
  refine ⟨[node, node, node, node], fun keywords => ⟨answer, ?_⟩⟩
  obtain ⟨client', hsearch, -⟩ :=
    @exists_searchFor_eq sampleRuntime keywords answer page .init _ _ _ hnodes hat
  exact ⟨client', hsearch⟩

/-- **URL parsing.** On the path with an encoding of the keywords and with the page in decimal,
`go_search` is the search for these keywords and this page exactly if no piece between the slashes
of the keywords is `page`. -/
theorem url_recovers_iff {keywords enc : Bytes} {page : Int} (henc : Encodes keywords enc)
    (h1 : 1 ≤ page) (hint : IsInt page) :
    (∀ R client nodes, goSearch R client (pathText enc (toDecimal page)) nodes =
      searchFor R indexPoolMax client keywords page nodes) ↔ ¬PageInside keywords := by
  have hdigits : Encodes (toDecimal page) (toDecimal page) := by
    apply encodes_self
    intro c hc
    exact isDigit_or_minus_ne c (mem_toDecimal hc)
  have hdecode : urlDecode 0 none (pathText enc (toDecimal page)) =
      some (pathText keywords (toDecimal page)) := by
    apply urlDecode_of_encodes
    apply Encodes.append _ hdigits
    apply Encodes.append _ (encodes_self (by decide +kernel))
    exact (encodes_self (by decide +kernel)).append henc
  constructor
  · intro hall hinside
    obtain ⟨nodes, hanswered⟩ := exists_searchFor h1
    obtain ⟨answer, client', hsearch⟩ := hanswered keywords
    have hsame := hall sampleRuntime .init nodes
    rw [hsearch, goSearch_of_urlDecode _ _ hdecode] at hsame
    split at hsame
    · cases hsame
    · next hcut =>
        have hshort := length_lt_of_pageInside hinside hcut
        -- the request shows which keywords were found
        rw [keywords_of_request hsame] at hshort
        exact lt_irrefl _ hshort
  · intro hfree R client nodes
    simp only [goSearch_of_urlDecode _ _ hdecode, splitPath_pathText hfree,
      strtol_toDecimal hint, wrapInt_of_isInt hint]

/-- Two words, with a plus sign for the space. -/
theorem url_recovers_two_words : Encodes (ascii "a b") (ascii "a+b") ∧ ∀ R client nodes,
    goSearch R client (pathText (ascii "a+b") (toDecimal 1)) nodes =
      searchFor R indexPoolMax client (ascii "a b") 1 nodes := by
  have henc : Encodes (ascii "a b") (ascii "a+b") :=
    .plain (by decide) (by decide) (.plus (.plain (by decide) (by decide) .nil))
  exact ⟨henc, (url_recovers_iff henc (by decide) (by decide)).2 (by decide)⟩

/-- The keywords `a/page/2` on page 1 are sent as `a`, for page 2. -/
theorem keywords_cut_at_page : Encodes (ascii "a/page/2") (ascii "a%2Fpage%2F2") ∧
    (∀ R client nodes, goSearch R client (ascii "/query/a%2Fpage%2F2/page/1") nodes =
      searchFor R indexPoolMax client (ascii "a") 2 nodes) ∧
    ¬∀ R client nodes, goSearch R client (ascii "/query/a%2Fpage%2F2/page/1") nodes =
      searchFor R indexPoolMax client (ascii "a/page/2") 1 nodes := by
  have henc : Encodes (ascii "a/page/2") (ascii "a%2Fpage%2F2") := by
    refine .plain (by decide) (by decide) (.escaped (x := 2) (y := 15) rfl rfl rfl ?_)
    refine Encodes.append (s := ascii "page") (encodes_self (by decide +kernel)) ?_
    exact .escaped (x := 2) (y := 15) rfl rfl rfl (.plain (by decide) (by decide) .nil)
  have hdecode : urlDecode 0 none (ascii "/query/a%2Fpage%2F2/page/1") =
      some (ascii "/query/a/page/2/page/1") := by
    decide +kernel
  have hsplit : splitPath (ascii "/query/a/page/2/page/1") =
      some (ascii "a", ascii "2/page/1") := by
    decide +kernel
  have hcut : ∀ R client nodes, goSearch R client (ascii "/query/a%2Fpage%2F2/page/1") nodes =
      searchFor R indexPoolMax client (ascii "a") 2 nodes := by
    intro R client nodes
    rw [goSearch_of_urlDecode _ _ hdecode, hsplit]
    rfl
  refine ⟨henc, hcut, fun hall => ?_⟩
  obtain ⟨nodes, hanswered⟩ := @exists_searchFor 1 le_rfl
  obtain ⟨answer, client', hsearch⟩ := hanswered (ascii "a/page/2")
  have hsame := (hcut sampleRuntime .init nodes).symm.trans
    ((hall sampleRuntime .init nodes).trans hsearch)
  exact absurd (keywords_of_request hsame) (by decide)

end DeSearch
