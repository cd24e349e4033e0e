import DeSearch.Json
import Mathlib.Data.List.DropRight

/-!
# SimpleJSON: what survives printing and parsing

* `load_dump`: a value without numbers, whose object keys are in the escaped form the parser
  gives them, is read back from its printed text exactly.
* `NulFree` is kept: nothing parsed out of a NUL-free text holds a NUL.

The round trip is stated with a suffix (`parseNext_dump`): the parser stops right after the
value, whatever follows. That is the form in which the cases of an array and of an object use
it on their elements.
-/

namespace DeSearch

/-! ## Decimal digits -/

theorem isDigit_of_mem_decimal {n : Nat} {c : Byte} (h : c ∈ decimal n) : isDigit c := by
  unfold decimal at h
  split_ifs at h
  · rw [List.mem_singleton.1 h]
    decide
  · obtain ⟨d, hd, rfl⟩ := List.mem_map.1 h
    have hlt : d < 10 := Nat.digits_lt_base (by decide) (List.mem_reverse.1 hd)
    have hval : (Fin.ofNat 256 (48 + d)).val = 48 + d := by
      rw [Fin.val_ofNat]
      omega
    simp only [isDigit, Fin.le_def, hval, Bool.and_eq_true, decide_eq_true_eq]
    exact ⟨by simp, by simp; omega⟩

theorem decimal_ne_nil (n : Nat) : decimal n ≠ [] := by
  unfold decimal
  split_ifs with h
  · simp
  · simpa using Nat.digits_ne_nil_iff_ne_zero.2 h

theorem mem_toDecimal {n : Int} {c : Byte} (h : c ∈ toDecimal n) : isDigit c ∨ c = ch '-' := by
  unfold toDecimal at h
  split_ifs at h
  · rcases List.mem_cons.1 h with hc | hc
    · exact .inr hc
    · exact .inl (isDigit_of_mem_decimal hc)
  · exact .inl (isDigit_of_mem_decimal h)

theorem toDecimal_ne_nil (n : Int) : toDecimal n ≠ [] := by
  unfold toDecimal
  split_ifs
  · exact List.cons_ne_nil _ _
  · exact decimal_ne_nil _

namespace JSON

variable {R : Runtime}

/-! ## Strings -/

/-- Reading one escaped character. -/
theorem parseString_escapeByte (val : Bytes) (c : Byte) (s : Bytes) :
    parseString .plain val (escapeByte c ++ s) = parseString .plain (val ++ [c]) s := by
  unfold escapeByte
  split_ifs with h₁ h₂ h₃ h₄ h₅ h₆ h₇
  · subst h₁; rfl
  · subst h₂; rfl
  · subst h₃; rfl
  · subst h₄; rfl
  · subst h₅; rfl
  · subst h₆; rfl
  · subst h₇; rfl
  · simp [parseString, h₁, h₂]

/-- Escaping is undone by the parser, up to the closing quote. -/
theorem parseString_escape (val s r : Bytes) :
    parseString .plain val (escape s ++ ch '"' :: r) = some (val ++ s, r) := by
  induction s generalizing val with
  | nil => simp [escape, parseString]
  | cons c s ih =>
      have hstep : escape (c :: s) = escapeByte c ++ escape s := rfl
      rw [hstep, List.append_assoc, parseString_escapeByte, ih, List.append_assoc]
      rfl

/-! ## Values the printer and the parser agree on -/

mutual

/-- No number in the value, and every object in the order and with the keys the parser gives. -/
def Plain : JSON → Prop
  | null | boolean _ | string _ => True
  | floating _ | integral _ => False
  | array l => PlainElems l
  | object m => PlainMembers m ∧ (m.map Prod.fst).Pairwise (· < ·)

def PlainElems : List JSON → Prop
  | [] => True
  | v :: l => Plain v ∧ PlainElems l

def PlainMembers : List (Bytes × JSON) → Prop
  | [] => True
  | (k, v) :: m => (∃ u, k = escape u) ∧ Plain v ∧ PlainMembers m

end

mutual

/-- The fuel `parseNext` needs for the printed value. -/
def need : JSON → Nat
  | array l => 1 + needElems l
  | object m => 1 + needMembers m
  | _ => 1

def needElems : List JSON → Nat
  | [] => 0
  | v :: l => 1 + need v + needElems l

def needMembers : List (Bytes × JSON) → Nat
  | [] => 0
  | (_, v) :: m => 2 + need v + needMembers m

end

/-! ## White space -/

theorem consumeWs_cons {c : Byte} (h : isSpace c = false) (s : Bytes) :
    consumeWs (c :: s) = c :: s := by
  simp [consumeWs, h]

theorem consumeWs_space (s : Bytes) : consumeWs (32 :: s) = consumeWs s := rfl

theorem consumeWs_newline (s : Bytes) : consumeWs (10 :: s) = consumeWs s := rfl

theorem consumeWs_pad (d : Nat) (s : Bytes) : consumeWs (pad d ++ s) = consumeWs s := by
  unfold pad
  generalize 2 * d = k
  induction k with
  | zero => rfl
  | succ k ih => rw [List.replicate_succ, List.cons_append, consumeWs_space, ih]

/-- `parseNext` skips white space by itself. -/
theorem parseNext_consumeWs (n : Nat) (s : Bytes) :
    parseNext R n (consumeWs s) = parseNext R n s := by
  have hidem : consumeWs (consumeWs s) = consumeWs s := List.dropWhile_idempotent _ _
  cases n with
  | zero => rfl
  | succ n => simp only [parseNext, hidem]

/-! ## The cases of the round trip -/

theorem parseNext_string {n : Nat} (s r : Bytes) :
    parseNext R (n + 1) (ch '"' :: escape s ++ ch '"' :: r) = some (string s, r) := by
  have hws : consumeWs (ch '"' :: (escape s ++ ch '"' :: r)) = _ := consumeWs_cons rfl _
  rw [List.cons_append, parseNext, hws]
  simp [parseString_escape]

/-- A printed value starts with a character that is neither blank nor a closing bracket. -/
theorem dump_head {j : JSON} (hj : Plain j) (d : Nat) :
    ∃ c t, dump d j = c :: t ∧ isSpace c = false ∧ c ≠ ch ']' ∧ c ≠ ch '}' := by
  cases j with
  | null => exact ⟨_, _, rfl, by decide⟩
  | object m => exact ⟨_, _, rfl, by decide⟩
  | array l => exact ⟨_, _, rfl, by decide⟩
  | string s => exact ⟨_, _, rfl, by decide⟩
  | boolean b => cases b <;> exact ⟨_, _, rfl, by decide⟩
  | floating t => exact hj.elim
  | integral n => exact hj.elim

theorem dumpElems_head {v : JSON} {l : List JSON} (h : PlainElems (v :: l)) (d : Nat) :
    ∃ c t, dumpElems d (v :: l) = c :: t ∧ isSpace c = false ∧ c ≠ ch ']' ∧ c ≠ ch '}' := by
  obtain ⟨c, t, hct, hc⟩ := dump_head h.1 (d + 1)
  cases l with
  | nil => exact ⟨c, t, hct, hc⟩
  | cons w l => exact ⟨c, _, by rw [dumpElems, hct]; rfl; simp, hc⟩

theorem dumpElems_cons (d : Nat) (v w : JSON) (l : List JSON) :
    dumpElems d (v :: w :: l) = dump (d + 1) v ++ (ch ',' :: 32 :: dumpElems d (w :: l)) := by
  simp [dumpElems, ascii, ch]

theorem mapSet_append {k : Bytes} {v : JSON} {m : List (Bytes × JSON)}
    (h : ∀ p ∈ m, p.1 < k) : mapSet k v m = m ++ [(k, v)] := by
  induction m with
  | nil => rfl
  | cons p m ih =>
      obtain ⟨k', v'⟩ := p
      have hlt : k' < k := h (k', v') List.mem_cons_self
      have hne : k ≠ k' := ne_of_gt hlt
      rw [mapSet, if_neg (not_lt_of_gt hlt), if_neg hne, ih fun p hp => h p (.tail _ hp)]
      rfl

theorem parseNext_space (n : Nat) (s : Bytes) : parseNext R n (32 :: s) = parseNext R n s := by
  rw [← parseNext_consumeWs, consumeWs_space, parseNext_consumeWs]

theorem parseArray_space (n : Nat) (acc : List JSON) (s : Bytes) :
    parseArray R n acc (32 :: s) = parseArray R n acc s := by
  cases n with
  | zero => rfl
  | succ n => simp only [parseArray, parseNext_space]

theorem parseObject_consumeWs (n : Nat) (acc : List (Bytes × JSON)) (s : Bytes) :
    parseObject R n acc (consumeWs s) = parseObject R n acc s := by
  cases n with
  | zero => rfl
  | succ n => simp only [parseObject, parseNext_consumeWs]

theorem parseObject_pad (n d : Nat) (acc : List (Bytes × JSON)) (s : Bytes) :
    parseObject R n acc (pad d ++ s) = parseObject R n acc s := by
  rw [← parseObject_consumeWs, consumeWs_pad, parseObject_consumeWs]

/-- In a sorted object, the keys already read are below the next one. -/
theorem fst_lt_of_pairwise {acc m : List (Bytes × JSON)} {k : Bytes} {v : JSON}
    (h : ((acc ++ (k, v) :: m).map Prod.fst).Pairwise (· < ·)) : ∀ p ∈ acc, p.1 < k := by
  intro p hp
  rw [List.map_append, List.pairwise_append] at h
  exact h.2.2 p.1 (List.mem_map_of_mem hp) k (by simp)

/-- One printed member: its key, the colon, and its value. -/
theorem parseObject_member {n : Nat} {u : Bytes} {v : JSON} {acc : List (Bytes × JSON)}
    {s t r : Bytes} {c : Byte} (hv : parseNext R (n + 1) s = some (v, t))
    (ht : consumeWs t = c :: r) :
    parseObject R (n + 2) acc (ch '"' :: escape u ++ ascii "\" : " ++ s) =
      if c = ch ',' then parseObject R (n + 1) (mapSet (escape u) v acc) r
      else if c = ch '}' then some (object (mapSet (escape u) v acc), r)
      else some (object (mapSet (escape u) v acc), c :: r) := by
  have hkey : ch '"' :: escape u ++ ascii "\" : " ++ s =
      ch '"' :: escape u ++ ch '"' :: (32 :: ch ':' :: 32 :: s) := by
    simp [ascii, ch]
  have hcolon : consumeWs (32 :: ch ':' :: 32 :: s) = ch ':' :: 32 :: s := by
    rw [consumeWs_space, consumeWs_cons rfl]
  have hval : parseNext R (n + 1) (consumeWs (32 :: s)) = some (v, t) := by
    rw [consumeWs_space, parseNext_consumeWs, hv]
  rw [hkey, parseObject, parseNext_string]
  simp only [hcolon, hval, if_true, toStr, ht]

theorem dumpMembers_singleton (d : Nat) (k : Bytes) (v : JSON) :
    dumpMembers d [(k, v)] = pad d ++ (ch '"' :: k ++ ascii "\" : " ++ dump (d + 1) v) := by
  simp [dumpMembers]

theorem dumpMembers_cons (d : Nat) (k : Bytes) (v : JSON) (p : Bytes × JSON)
    (m : List (Bytes × JSON)) :
    dumpMembers d ((k, v) :: p :: m) =
      pad d ++ (ch '"' :: k ++ ascii "\" : " ++
        (dump (d + 1) v ++ ch ',' :: 10 :: dumpMembers d (p :: m))) := by
  simp [dumpMembers, ascii, ch]

theorem consumeWs_dumpMembers (d : Nat) (k : Bytes) (v : JSON) (m : List (Bytes × JSON)) :
    ∃ t, ∀ r, consumeWs (dumpMembers d ((k, v) :: m) ++ r) = ch '"' :: (t ++ r) := by
  have hws : ∀ s, consumeWs (ch '"' :: s) = ch '"' :: s := consumeWs_cons rfl
  cases m with
  | nil =>
      refine ⟨k ++ ascii "\" : " ++ dump (d + 1) v, fun r => ?_⟩
      rw [dumpMembers_singleton, List.append_assoc, consumeWs_pad]
      simp [hws]
  | cons p m =>
      refine ⟨k ++ ascii "\" : " ++ (dump (d + 1) v ++ ch ',' :: 10 :: dumpMembers d (p :: m)),
        fun r => ?_⟩
      rw [dumpMembers_cons, List.append_assoc, consumeWs_pad]
      simp [hws]

mutual

/-- **The parser reads back what the printer wrote**, and stops there. -/
theorem parseNext_dump : ∀ (j : JSON), Plain j → ∀ (d n : Nat) (r : Bytes), need j ≤ n →
    parseNext R n (dump d j ++ r) = some (j, r)
  | null, _, d, n, r, hn => by
      obtain ⟨n, rfl⟩ : ∃ k, n = k + 1 := ⟨n - 1, by simp [need] at hn; omega⟩
      rfl
  | boolean true, _, d, n, r, hn => by
      obtain ⟨n, rfl⟩ : ∃ k, n = k + 1 := ⟨n - 1, by simp [need] at hn; omega⟩
      rfl
  | boolean false, _, d, n, r, hn => by
      obtain ⟨n, rfl⟩ : ∃ k, n = k + 1 := ⟨n - 1, by simp [need] at hn; omega⟩
      rfl
  | string s, _, d, n, r, hn => by
      obtain ⟨n, rfl⟩ : ∃ k, n = k + 1 := ⟨n - 1, by simp [need] at hn; omega⟩
      simpa [dump] using parseNext_string (R := R) (n := n) s r
  | array [], _, d, n, r, hn => by
      obtain ⟨n, rfl⟩ : ∃ k, n = k + 1 := ⟨n - 1, by simp [need] at hn; omega⟩
      rfl
  | array (v :: l), hj, d, n, r, hn => by
      obtain ⟨n, rfl⟩ : ∃ k, n = k + 1 := ⟨n - 1, by simp [need] at hn; omega⟩
      have hl := parseArray_dump v l hj [] d n r (by simp only [need] at hn; omega)
      obtain ⟨c, t, hct, hsp, hcl, -⟩ := dumpElems_head hj d
      have htext : dump d (array (v :: l)) ++ r =
          ch '[' :: (dumpElems d (v :: l) ++ ch ']' :: r) := by simp [dump, ascii, ch]
      have hws : ∀ s, consumeWs (ch '[' :: s) = ch '[' :: s := consumeWs_cons rfl
      have hws' : consumeWs (c :: (t ++ ch ']' :: r)) = c :: (t ++ ch ']' :: r) :=
        consumeWs_cons hsp _
      rw [hct] at hl htext
      rw [htext, parseNext, hws]
      simpa [hws', hcl] using hl
  | object [], _, d, n, r, hn => by
      obtain ⟨n, rfl⟩ : ∃ k, n = k + 1 := ⟨n - 1, by simp [need] at hn; omega⟩
      have htext : dump d (object []) ++ r =
          ch '{' :: 10 :: 10 :: (pad (d - 1) ++ ch '}' :: r) := by
        simp [dump, dumpMembers, ascii, ch]
      have hws : ∀ s, consumeWs (ch '{' :: s) = ch '{' :: s := consumeWs_cons rfl
      have hws' : consumeWs (10 :: 10 :: (pad (d - 1) ++ ch '}' :: r)) = ch '}' :: r := by
        rw [consumeWs_newline, consumeWs_newline, consumeWs_pad, consumeWs_cons rfl]
      rw [htext, parseNext, hws]
      simp [hws']
  | object ((k, v) :: m), hj, d, n, r, hn => by
      obtain ⟨n, rfl⟩ : ∃ k, n = k + 1 := ⟨n - 1, by simp [need] at hn; omega⟩
      have hm := parseObject_dump k v m hj.1 [] hj.2 d n r (by simp only [need] at hn; omega)
      have htext : dump d (object ((k, v) :: m)) ++ r =
          ch '{' :: 10 :: (dumpMembers d ((k, v) :: m) ++ 10 :: (pad (d - 1) ++ ch '}' :: r)) := by
        simp [dump, ascii, ch]
      have hws : ∀ s, consumeWs (ch '{' :: s) = ch '{' :: s := consumeWs_cons rfl
      obtain ⟨t, ht⟩ := consumeWs_dumpMembers d k v m
      have hws' : consumeWs (10 :: (dumpMembers d ((k, v) :: m) ++
          10 :: (pad (d - 1) ++ ch '}' :: r))) =
            ch '"' :: (t ++ 10 :: (pad (d - 1) ++ ch '}' :: r)) := by
        rw [consumeWs_newline, ht]
      rw [← parseObject_consumeWs, ht] at hm
      rw [htext, parseNext, hws]
      simpa [hws'] using hm
  termination_by j => need j
  decreasing_by all_goals simp only [need, needElems, needMembers]; omega

theorem parseArray_dump : ∀ (v : JSON) (l : List JSON), PlainElems (v :: l) →
    ∀ (acc : List JSON) (d n : Nat) (r : Bytes), needElems (v :: l) ≤ n →
      parseArray R n acc (dumpElems d (v :: l) ++ ch ']' :: r) = some (array (acc ++ v :: l), r)
  | v, [], hl, acc, d, n, r, hn => by
      obtain ⟨n, rfl⟩ : ∃ k, n = k + 1 := ⟨n - 1, by simp [needElems] at hn; omega⟩
      have hv := parseNext_dump v hl.1 (d + 1) n (ch ']' :: r) (by simp [needElems] at hn; omega)
      have hws : consumeWs (ch ']' :: r) = ch ']' :: r := consumeWs_cons rfl r
      simp only [dumpElems, parseArray, hv, hws]
      simp
  | v, w :: l, hl, acc, d, n, r, hn => by
      obtain ⟨n, rfl⟩ : ∃ k, n = k + 1 := ⟨n - 1, by simp [needElems] at hn; omega⟩
      have hv := parseNext_dump v hl.1 (d + 1) n
        (ch ',' :: 32 :: dumpElems d (w :: l) ++ ch ']' :: r) (by simp [needElems] at hn; omega)
      have hrest := parseArray_dump w l hl.2 (acc ++ [v]) d n r
        (by simp only [needElems] at hn ⊢; omega)
      have hws : ∀ t, consumeWs (ch ',' :: t) = ch ',' :: t := consumeWs_cons rfl
      rw [dumpElems_cons, List.append_assoc, parseArray, hv]
      simp only [List.cons_append, hws, if_true, parseArray_space, hrest]
      simp
  termination_by v l => needElems (v :: l)
  decreasing_by all_goals simp only [needElems]; omega

theorem parseObject_dump : ∀ (k : Bytes) (v : JSON) (m : List (Bytes × JSON)),
    PlainMembers ((k, v) :: m) → ∀ (acc : List (Bytes × JSON)),
    ((acc ++ (k, v) :: m).map Prod.fst).Pairwise (· < ·) →
    ∀ (d n : Nat) (r : Bytes), needMembers ((k, v) :: m) ≤ n →
      parseObject R n acc (dumpMembers d ((k, v) :: m) ++ 10 :: (pad (d - 1) ++ ch '}' :: r)) =
        some (object (acc ++ (k, v) :: m), r)
  | k, v, [], hm, acc, hs, d, n, r, hn => by
      obtain ⟨n, rfl⟩ : ∃ i, n = i + 2 := ⟨n - 2, by simp [needMembers] at hn; omega⟩
      obtain ⟨⟨u, rfl⟩, hv, -⟩ := hm
      have hval := parseNext_dump v hv (d + 1) (n + 1) (10 :: (pad (d - 1) ++ ch '}' :: r))
        (by simp [needMembers] at hn; omega)
      have hws : consumeWs (10 :: (pad (d - 1) ++ ch '}' :: r)) = ch '}' :: r := by
        rw [consumeWs_newline, consumeWs_pad, consumeWs_cons rfl]
      rw [dumpMembers_singleton, List.append_assoc, parseObject_pad, List.append_assoc,
        parseObject_member hval hws, mapSet_append (fst_lt_of_pairwise hs)]
      simp
  | k, v, (k', v') :: m, hm, acc, hs, d, n, r, hn => by
      obtain ⟨n, rfl⟩ : ∃ i, n = i + 2 := ⟨n - 2, by simp [needMembers] at hn; omega⟩
      obtain ⟨⟨u, rfl⟩, hv, hm⟩ := hm
      have htext : dumpMembers d ((escape u, v) :: (k', v') :: m) ++
            10 :: (pad (d - 1) ++ ch '}' :: r) =
          pad d ++ (ch '"' :: escape u ++ ascii "\" : " ++ (dump (d + 1) v ++ ch ',' :: 10 ::
            (dumpMembers d ((k', v') :: m) ++ 10 :: (pad (d - 1) ++ ch '}' :: r)))) := by
        rw [dumpMembers_cons]
        simp
      have hval := parseNext_dump v hv (d + 1) (n + 1)
        (ch ',' :: 10 :: (dumpMembers d ((k', v') :: m) ++ 10 :: (pad (d - 1) ++ ch '}' :: r)))
        (by simp only [needMembers] at hn; omega)
      have hrest := parseObject_dump k' v' m hm (acc ++ [(escape u, v)]) (by simpa using hs) d
        (n + 1) r (by simp only [needMembers] at hn ⊢; omega)
      rw [htext, parseObject_pad, parseObject_member hval (consumeWs_cons rfl _), if_pos rfl,
        mapSet_append (fst_lt_of_pairwise hs), ← parseObject_consumeWs, consumeWs_newline,
        parseObject_consumeWs, hrest]
      simp
  termination_by k v m => needMembers ((k, v) :: m)
  decreasing_by all_goals simp only [needMembers]; omega

end

/-! ## Loading a printed value -/

mutual

theorem need_le_dump : ∀ (j : JSON), Plain j → ∀ d, need j ≤ (dump d j).length
  | null, _, d | string _, _, d => by simp [need, dump, ascii]
  | boolean true, _, d | boolean false, _, d => by simp [need, dump, ascii]
  | array l, hj, d => by
      have := needElems_le_dump l hj d
      simp only [need, dump, List.length_append, ascii]
      simp
      omega
  | object m, hj, d => by
      have := needMembers_le_dump m hj.1 d
      simp only [need, dump, List.length_append, ascii]
      simp
      omega

theorem needElems_le_dump : ∀ (l : List JSON), PlainElems l → ∀ d,
    needElems l ≤ (dumpElems d l).length + 1
  | [], _, d => by simp [needElems]
  | [v], hl, d => by
      have := need_le_dump v hl.1 (d + 1)
      simp only [needElems, dumpElems]
      omega
  | v :: w :: l, hl, d => by
      have hv := need_le_dump v hl.1 (d + 1)
      have hl := needElems_le_dump (w :: l) hl.2 d
      rw [dumpElems_cons, needElems]
      simp only [List.length_append, List.length_cons]
      omega

theorem needMembers_le_dump : ∀ (m : List (Bytes × JSON)), PlainMembers m → ∀ d,
    needMembers m ≤ (dumpMembers d m).length + 1
  | [], _, d => by simp [needMembers]
  | [(k, v)], hm, d => by
      have := need_le_dump v hm.2.1 (d + 1)
      rw [dumpMembers_singleton]
      simp only [needMembers, List.length_append, List.length_cons]
      omega
  | (k, v) :: p :: m, hm, d => by
      have hv := need_le_dump v hm.2.1 (d + 1)
      have hm := needMembers_le_dump (p :: m) hm.2.2 d
      rw [dumpMembers_cons, needMembers]
      simp only [List.length_append, List.length_cons]
      omega

end

/-- **Round trip.** Loading the printed text of a plain value gives the value back, also when
other text follows. -/
theorem load_dump_append {j : JSON} (hj : Plain j) (d : Nat) (r : Bytes) :
    load R (dump d j ++ r) = some j := by
  have hfuel : need j ≤ loadFuel (dump d j ++ r) := by
    have := need_le_dump j hj d
    simp only [loadFuel, List.length_append]
    omega
  rw [load, List.append_assoc, parseNext_dump j hj d _ (r ++ [0]) hfuel]
  rfl

theorem load_dump {j : JSON} (hj : Plain j) (d : Nat) : load R (dump d j) = some j := by
  simpa using load_dump_append (R := R) hj d []

/-! ## NUL bytes -/

mutual

/-- No string and no key in the value holds a NUL. -/
def Clean : JSON → Prop
  | null | boolean _ | integral _ | floating _ => True
  | string s => NulFree s
  | array l => CleanElems l
  | object m => CleanMembers m

def CleanElems : List JSON → Prop
  | [] => True
  | v :: l => Clean v ∧ CleanElems l

def CleanMembers : List (Bytes × JSON) → Prop
  | [] => True
  | (k, v) :: m => NulFree k ∧ Clean v ∧ CleanMembers m

end

/-- What the parser may have ahead of it in a NUL-free string: the rest of the string with its
terminator, or nothing once the terminator is behind. -/
def Ahead : Bytes → Prop
  | [] => True
  | c :: s => if c = 0 then s = [] else Ahead s

theorem ahead_of_nulFree {s : Bytes} (h : NulFree s) : Ahead (s ++ [0]) := by
  induction s with
  | nil => simp [Ahead]
  | cons c s ih =>
      rw [nulFree_cons] at h
      simp [Ahead, h.1, ih h.2]

theorem Ahead.tail {c : Byte} {s : Bytes} (h : Ahead (c :: s)) : Ahead s := by
  by_cases hc : c = 0
  · have : s = [] := by simpa [Ahead, hc] using h
    subst this
    trivial
  · simpa [Ahead, hc] using h

theorem Ahead.eq_nil {c : Byte} {s : Bytes} (h : Ahead (c :: s)) (hc : c = 0) : s = [] := by
  simpa [Ahead, hc] using h

theorem Ahead.drop {s : Bytes} (h : Ahead s) (k : Nat) : Ahead (s.drop k) := by
  induction k generalizing s with
  | zero => exact h
  | succ k ih =>
      cases s with
      | nil => trivial
      | cons c s => exact ih h.tail

theorem Ahead.dropWhile {s : Bytes} (h : Ahead s) (p : Byte → Bool) : Ahead (s.dropWhile p) := by
  induction s with
  | nil => trivial
  | cons c s ih =>
      rw [List.dropWhile_cons]
      split
      · exact ih h.tail
      · exact h

theorem Ahead.consumeWs {s : Bytes} (h : Ahead s) : Ahead (consumeWs s) := h.dropWhile _

theorem nulFree_escape {s : Bytes} (h : NulFree s) : NulFree (escape s) := by
  have hbyte : ∀ c : Byte, c ≠ 0 → NulFree (escapeByte c) := by
    intro c hc
    unfold escapeByte
    split_ifs <;> simp [ch, hc]
  induction s with
  | nil => simp [escape]
  | cons c s ih =>
      rw [nulFree_cons] at h
      have hstep : escape (c :: s) = escapeByte c ++ escape s := rfl
      rw [hstep, nulFree_append]
      exact ⟨hbyte c h.1, ih h.2⟩

theorem nulFree_numeral (t : Numeral) : NulFree t.text := by
  intro hz
  have := t.chars 0 hz
  revert this
  decide

/-- `parse_string` never returns the terminator: reading past it is not defined. -/
theorem parseString_nulFree {mode : StringMode} {val s v r : Bytes}
    (hmode : ∀ k back, mode = .hex k back → Ahead back) (hval : NulFree val) (hs : Ahead s)
    (h : parseString mode val s = some (v, r)) : NulFree v ∧ Ahead r := by
  induction s generalizing mode val with
  | nil => cases mode <;> simp [parseString] at h
  | cons c s ih =>
      -- The terminator leaves nothing to read, so the recursive call fails on it.
      have hnil : ∀ {mode val}, c = 0 → parseString mode val s ≠ some (v, r) := by
        intro mode val hc
        rw [hs.eq_nil hc]
        cases mode <;> simp [parseString]
      cases mode with
      | plain =>
          simp only [parseString] at h
          split_ifs at h with h₁ h₂
          · obtain ⟨rfl, rfl⟩ := by simpa using h
            exact ⟨hval, hs.tail⟩
          · exact ih (by simp) hval hs.tail h
          · by_cases hc : c = 0
            · exact absurd h (hnil hc)
            · exact ih (by simp) (by simp [hval, hc]) hs.tail h
      | escape =>
          simp only [parseString] at h
          split_ifs at h with h₁
          · refine ih ?_ (by simpa [ch] using hval) hs.tail h
            rintro k back hk
            cases hk
            exact hs
          · have hne : unescapeByte c ≠ 0 := by
              unfold unescapeByte
              split_ifs <;> simp [ch]
            exact ih (by simp) (by simp [hval, hne]) hs.tail h
      | hex k back =>
          have hback := hmode k back rfl
          simp only [parseString] at h
          split_ifs at h with h₁ h₂
          · have hc : c ≠ 0 := by rintro rfl; revert h₁; decide
            exact ih (by simp) (by simp [hval, hc]) hs.tail h
          · have hc : c ≠ 0 := by rintro rfl; revert h₁; decide
            refine ih ?_ (by simp [hval, hc]) hs.tail h
            rintro k' back' hk
            cases hk
            exact hback
          · obtain ⟨rfl, rfl⟩ := by simpa using h
            exact ⟨nulFree_nil, hback⟩

/-- Where `parse_number` goes on after an exponent: at the character that ended it, or behind it. -/
theorem parseExponent_eq_some {c : Byte} {s r : Bytes} {e : Option Bytes}
    (h : parseExponent (c :: s) = some (e, r)) :
    ∃ n d u, (s.drop n).dropWhile isDigit = d :: u ∧ (r = d :: u ∨ r = u) := by
  simp only [parseExponent] at h
  split_ifs at h
  · split at h
    · cases h
    · next d u hd =>
        refine ⟨1, d, u, hd, ?_⟩
        split_ifs at h <;> cases h
        · exact .inl rfl
        · exact .inr rfl
  · split at h
    · cases h
    · next d u hd =>
        refine ⟨0, d, u, hd, ?_⟩
        split_ifs at h <;> cases h
        · exact .inl rfl
        · exact .inr rfl

theorem parseExponent_ahead {s r : Bytes} {e : Option Bytes} (hs : Ahead s)
    (h : parseExponent s = some (e, r)) : Ahead r := by
  cases s with
  | nil => simp [parseExponent] at h
  | cons c s =>
      obtain ⟨n, d, u, hd, hr⟩ := parseExponent_eq_some h
      have hrest := (hs.tail.drop n).dropWhile isDigit
      rw [hd] at hrest
      rcases hr with rfl | rfl
      · exact hrest
      · exact hrest.tail

/-- The shape of every successful branch of `parse_number`. -/
theorem clean_of_map {α : Type} {o : Option α} {f : α → JSON} {u r : Bytes} {j : JSON}
    (h : (o.map fun x => (f x, u)) = some (j, r)) (hf : ∀ x, o = some x → Clean (f x))
    (hu : Ahead u) : Clean j ∧ Ahead r := by
  obtain ⟨x, hx, heq⟩ := Option.map_eq_some_iff.1 h
  obtain ⟨rfl, rfl⟩ := Prod.mk.inj heq
  exact ⟨hf x hx, hu⟩

theorem parseNumber_clean {s r : Bytes} {j : JSON} (hs : Ahead s)
    (h : parseNumber R s = some (j, r)) : Clean j ∧ Ahead r := by
  have hrest := hs.dropWhile numberChar
  unfold parseNumber at h
  cases hd : s.dropWhile numberChar with
  | nil => simp [hd] at h
  | cons c t =>
      rw [hd] at hrest
      simp only [hd] at h
      split at h
      · cases hx : parseExponent t with
        | none => simp [hx] at h
        | some p =>
            obtain ⟨e, u⟩ := p
            have hu := parseExponent_ahead hrest.tail hx
            cases e with
            | none =>
                obtain ⟨rfl, rfl⟩ := by simpa [hx] using h
                exact ⟨trivial, hu⟩
            | some es =>
                simp only [hx] at h
                cases he : stol es with
                | none => simp [he] at h
                | some e =>
                    simp only [he] at h
                    split at h
                    · exact clean_of_map h (fun _ _ => trivial) hu
                    · exact clean_of_map h (fun _ _ => trivial) hu
      · split at h
        · split at h
          · exact clean_of_map h (fun _ _ => trivial) hrest
          · exact clean_of_map h (fun _ _ => trivial) hrest
        · obtain ⟨rfl, rfl⟩ := by simpa using h
          exact ⟨trivial, hrest.tail⟩

theorem cleanElems_append {l : List JSON} {v : JSON} (hl : CleanElems l) (hv : Clean v) :
    CleanElems (l ++ [v]) := by
  induction l with
  | nil => exact ⟨hv, trivial⟩
  | cons w l ih => exact ⟨hl.1, ih hl.2⟩

theorem cleanMembers_mapSet {k : Bytes} {v : JSON} {m : List (Bytes × JSON)} (hk : NulFree k)
    (hv : Clean v) (hm : CleanMembers m) : CleanMembers (mapSet k v m) := by
  induction m with
  | nil => exact ⟨hk, hv, trivial⟩
  | cons p m ih =>
      obtain ⟨k', v'⟩ := p
      obtain ⟨hk', hv', hm⟩ := hm
      rw [mapSet]
      split_ifs
      · exact ⟨hk, hv, hk', hv', hm⟩
      · exact ⟨hk, hv, hm⟩
      · exact ⟨hk', hv', ih hm⟩

theorem nulFree_toStr {j : JSON} (h : Clean j) : NulFree j.toStr := by
  cases j with
  | string s => exact nulFree_escape h
  | _ => exact nulFree_nil

/-- `parse_next` with fuel `n` keeps to NUL-free values. -/
def NextClean (R : Runtime) (n : Nat) : Prop :=
  ∀ s j r, Ahead s → parseNext R n s = some (j, r) → Clean j ∧ Ahead r

def ArrayClean (R : Runtime) (n : Nat) : Prop :=
  ∀ l s j r, CleanElems l → Ahead s → parseArray R n l s = some (j, r) → Clean j ∧ Ahead r

def ObjectClean (R : Runtime) (n : Nat) : Prop :=
  ∀ m s j r, CleanMembers m → Ahead s → parseObject R n m s = some (j, r) → Clean j ∧ Ahead r

theorem parseBool_clean {s : Bytes} (hs : Ahead s) :
    Clean (parseBool s).1 ∧ Ahead (parseBool s).2 := by
  unfold parseBool
  split_ifs
  · exact ⟨trivial, hs.drop 4⟩
  · exact ⟨trivial, hs.drop 5⟩
  · exact ⟨trivial, hs⟩

theorem parseNull_clean {s : Bytes} (hs : Ahead s) :
    Clean (parseNull s).1 ∧ Ahead (parseNull s).2 := by
  unfold parseNull
  split_ifs
  · exact ⟨trivial, hs.drop 4⟩
  · exact ⟨trivial, hs⟩

theorem nextClean_succ {n : Nat} (ihArray : ArrayClean R n) (ihObject : ObjectClean R n) :
    NextClean R (n + 1) := by
  intro s j r hs h
  have hws := hs.consumeWs
  rw [parseNext] at h
  cases hd : consumeWs s with
  | nil => simp [hd] at h
  | cons c t =>
      rw [hd] at hws
      have hws' := hws.tail.consumeWs
      simp only [hd] at h
      split at h
      · cases ht : consumeWs t with
        | nil => simp [ht] at h
        | cons d u =>
            rw [ht] at hws'
            simp only [ht] at h
            split at h
            · obtain ⟨rfl, rfl⟩ := by simpa using h
              exact ⟨trivial, hws'.tail⟩
            · exact ihArray [] _ _ _ trivial hws' h
      split at h
      · cases ht : consumeWs t with
        | nil => simp [ht] at h
        | cons d u =>
            rw [ht] at hws'
            simp only [ht] at h
            split at h
            · obtain ⟨rfl, rfl⟩ := by simpa using h
              exact ⟨trivial, hws'.tail⟩
            · exact ihObject [] _ _ _ trivial hws' h
      split at h
      · obtain ⟨⟨v, u⟩, hp, heq⟩ := Option.map_eq_some_iff.1 h
        obtain ⟨rfl, rfl⟩ := Prod.mk.inj heq
        exact parseString_nulFree (by simp) nulFree_nil hws.tail hp
      split at h
      · rw [Option.some.injEq] at h
        simpa [h] using parseBool_clean hws
      split at h
      · rw [Option.some.injEq] at h
        simpa [h] using parseNull_clean hws
      split at h
      · exact parseNumber_clean hws h
      · obtain ⟨rfl, rfl⟩ := by simpa using h
        exact ⟨trivial, hws⟩

theorem arrayClean_succ {n : Nat} (ihNext : NextClean R n) (ihArray : ArrayClean R n) :
    ArrayClean R (n + 1) := by
  intro l s j r hl hs h
  rw [parseArray] at h
  cases hv : parseNext R n s with
  | none => simp [hv] at h
  | some p =>
      obtain ⟨v, t⟩ := p
      obtain ⟨hcv, ht⟩ := ihNext _ _ _ hs hv
      have hws := ht.consumeWs
      simp only [hv] at h
      cases hd : consumeWs t with
      | nil => simp [hd] at h
      | cons c u =>
          rw [hd] at hws
          simp only [hd] at h
          split at h
          · exact ihArray _ _ _ _ (cleanElems_append hl hcv) hws.tail h
          · split at h
            · obtain ⟨rfl, rfl⟩ := by simpa using h
              exact ⟨cleanElems_append hl hcv, hws.tail⟩
            · obtain ⟨rfl, rfl⟩ := by simpa using h
              exact ⟨trivial, hws⟩

theorem objectClean_succ {n : Nat} (ihNext : NextClean R n) (ihObject : ObjectClean R n) :
    ObjectClean R (n + 1) := by
  intro m s j r hm hs h
  rw [parseObject] at h
  cases hk : parseNext R n s with
  | none => simp [hk] at h
  | some p =>
      obtain ⟨k, t⟩ := p
      obtain ⟨hck, ht⟩ := ihNext _ _ _ hs hk
      have hws := ht.consumeWs
      simp only [hk] at h
      cases hd : consumeWs t with
      | nil => simp [hd] at h
      | cons c u =>
          rw [hd] at hws
          simp only [hd] at h
          split at h
          · cases hv : parseNext R n (consumeWs u) with
            | none => simp [hv] at h
            | some q =>
                obtain ⟨v, w⟩ := q
                obtain ⟨hcv, hw⟩ := ihNext _ _ _ hws.tail.consumeWs hv
                have hm' := cleanMembers_mapSet (nulFree_toStr hck) hcv hm
                have hws' := hw.consumeWs
                simp only [hv] at h
                cases he : consumeWs w with
                | nil => simp [he] at h
                | cons d x =>
                    rw [he] at hws'
                    simp only [he] at h
                    split at h
                    · exact ihObject _ _ _ _ hm' hws'.tail h
                    · split at h
                      · obtain ⟨rfl, rfl⟩ := by simpa using h
                        exact ⟨hm', hws'.tail⟩
                      · obtain ⟨rfl, rfl⟩ := by simpa using h
                        exact ⟨hm', hws'⟩
          · obtain ⟨rfl, rfl⟩ := by simpa using h
            exact ⟨hm, hws⟩

/-- Everything parsed out of a NUL-free string is free of NULs. -/
theorem parse_clean (n : Nat) : NextClean R n ∧ ArrayClean R n ∧ ObjectClean R n := by
  induction n with
  | zero =>
      refine ⟨?_, ?_, ?_⟩ <;> intro <;> intros <;> simp_all [parseNext, parseArray, parseObject]
  | succ n ih =>
      obtain ⟨ihNext, ihArray, ihObject⟩ := ih
      exact ⟨nextClean_succ ihArray ihObject, arrayClean_succ ihNext ihArray,
        objectClean_succ ihNext ihObject⟩

theorem load_clean {s : Bytes} {j : JSON} (hs : NulFree s) (h : load R s = some j) : Clean j := by
  obtain ⟨⟨j', r⟩, hp, rfl⟩ := Option.map_eq_some_iff.1 h
  exact ((parse_clean _).1 _ _ _ (ahead_of_nulFree hs) hp).1

theorem nulFree_toDecimal (n : Int) : NulFree (toDecimal n) := fun hz =>
  absurd (mem_toDecimal hz) (by decide)

theorem nulFree_pad (d : Nat) : NulFree (pad d) := by
  intro hz
  have := List.eq_of_mem_replicate hz
  revert this
  decide

mutual

/-- A value without NULs prints without NULs. -/
theorem nulFree_dump : ∀ (j : JSON), Clean j → ∀ d, NulFree (dump d j)
  | null, _, d => by simp only [dump]; decide
  | boolean true, _, d | boolean false, _, d => by simp only [dump]; decide
  | integral n, _, d => nulFree_toDecimal n
  | floating t, _, d => nulFree_numeral t
  | string s, h, d => by
      have hq : ch '"' ≠ 0 := by decide
      simp [dump, nulFree_escape h, hq]
  | array l, h, d => by
      have := nulFree_dumpElems l h d
      simp only [dump, nulFree_append, this, and_true]
      decide
  | object m, h, d => by
      have := nulFree_dumpMembers m h d
      simp only [dump, nulFree_append, nulFree_cons, this, nulFree_pad, and_true]
      decide

theorem nulFree_dumpElems : ∀ (l : List JSON), CleanElems l → ∀ d, NulFree (dumpElems d l)
  | [], _, d => nulFree_nil
  | [v], h, d => nulFree_dump v h.1 (d + 1)
  | v :: w :: l, h, d => by
      have hc : ch ',' ≠ 0 := by decide
      rw [dumpElems_cons]
      simp [nulFree_dump v h.1 (d + 1), nulFree_dumpElems (w :: l) h.2 d, hc]

theorem nulFree_dumpMembers : ∀ (m : List (Bytes × JSON)), CleanMembers m → ∀ d,
    NulFree (dumpMembers d m)
  | [], _, d => nulFree_nil
  | [(k, v)], h, d => by
      have hq : ch '"' ≠ 0 := by decide
      have hsep : NulFree (ascii "\" : ") := by decide
      rw [dumpMembers_singleton]
      simp [nulFree_pad, h.1, nulFree_dump v h.2.1 (d + 1), hq, hsep]
  | (k, v) :: p :: m, h, d => by
      have hq : ch '"' ≠ 0 := by decide
      have hc : ch ',' ≠ 0 := by decide
      have hsep : NulFree (ascii "\" : ") := by decide
      rw [dumpMembers_cons]
      simp [nulFree_pad, h.1, nulFree_dump v h.2.1 (d + 1), nulFree_dumpMembers (p :: m) h.2.2 d,
        hq, hc, hsep]

end

/-! ## What a printed text tells -/

/-- What a number prints starts with no quote and no bracket. -/
theorem numeral_cons {t : Bytes} (ht : t ≠ []) (h : ∀ c ∈ t, isDigit c ∨ c ∈ ascii "-.infa") :
    ∃ c t', t = c :: t' ∧ c ≠ ch ']' ∧ c ≠ ch '"' ∧ c ≠ ch '[' := by
  obtain ⟨c, t, rfl⟩ := List.exists_cons_of_ne_nil ht
  have hc := h c List.mem_cons_self
  refine ⟨c, t, rfl, ?_, ?_, ?_⟩ <;> rintro rfl <;> exact absurd hc (by decide)

/-- The first character of a printed value: a quote stands only before a string, an opening
bracket only before an array, and nothing prints a closing bracket first. -/
theorem dump_cons (d : Nat) (j : JSON) : ∃ c t, dump d j = c :: t ∧ c ≠ ch ']' ∧
    (c = ch '"' → ∃ s, j = string s) ∧ (c = ch '[' → ∃ l, j = array l) := by
  have other : (∃ c t, dump d j = c :: t ∧ c ≠ ch ']' ∧ c ≠ ch '"' ∧ c ≠ ch '[') →
      ∃ c t, dump d j = c :: t ∧ c ≠ ch ']' ∧
        (c = ch '"' → ∃ s, j = string s) ∧ (c = ch '[' → ∃ l, j = array l) := by
    rintro ⟨c, t, hct, hclose, hquote, hopen⟩
    exact ⟨c, t, hct, hclose, fun h => absurd h hquote, fun h => absurd h hopen⟩
  cases j with
  | null => exact other ⟨_, _, rfl, by decide⟩
  | object m => exact other ⟨_, _, rfl, by decide⟩
  | array l =>
      refine ⟨_, _, rfl, by decide, fun h => ?_, fun _ => ⟨l, rfl⟩⟩
      exact absurd h (by decide)
  | string s =>
      refine ⟨_, _, rfl, by decide, fun _ => ⟨s, rfl⟩, fun h => ?_⟩
      exact absurd h (by decide)
  | boolean b => cases b <;> exact other ⟨_, _, rfl, by decide⟩
  | floating t => exact other (numeral_cons t.ne_nil t.chars)
  | integral n =>
      refine other (numeral_cons (toDecimal_ne_nil n) fun c hc => ?_)
      rcases mem_toDecimal hc with hdigit | rfl
      · exact .inl hdigit
      · exact .inr (by decide)

/-- The printed text of a string is the text of that string only, and shows where it ends. -/
theorem dump_append_eq_string {d d' : Nat} {j : JSON} {s r r' : Bytes}
    (h : dump d j ++ r = dump d' (string s) ++ r') : j = string s ∧ r = r' := by
  obtain ⟨c, t, hct, -, hquote, -⟩ := dump_cons d j
  have hhead : c = ch '"' := by
    rw [hct] at h
    exact (List.cons.inj h).1
  obtain ⟨s', rfl⟩ := hquote hhead
  have htail : escape s' ++ ch '"' :: r = escape s ++ ch '"' :: r' := by
    simpa [dump] using h
  have hread := congrArg (parseString .plain []) htail
  rw [parseString_escape, parseString_escape] at hread
  simpa using hread

/-- The first element of an array, and what follows it. -/
theorem dumpElems_eq (d : Nat) (v : JSON) (l : List JSON) :
    dumpElems d (v :: l) =
      dump (d + 1) v ++ if l = [] then [] else ascii ", " ++ dumpElems d l := by
  cases l with
  | nil => simp [dumpElems]
  | cons w l => simp [dumpElems]

/-- No element starts with a closing bracket. -/
theorem dumpElems_ne_bracket (d : Nat) (v : JSON) (l : List JSON) (r r' : Bytes) :
    dumpElems d (v :: l) ++ r ≠ ch ']' :: r' := by
  obtain ⟨c, t, hct, hne, -⟩ := dump_cons (d + 1) v
  rw [dumpElems_eq, hct]
  intro h
  exact hne (List.cons.inj h).1

/-- The printed text of a list of strings is the text of that list only. -/
theorem dumpElems_append_eq_strings {d d' : Nat} {l : List JSON} {ss : List Bytes} {r r' : Bytes}
    (h : dumpElems d l ++ ch ']' :: r = dumpElems d' (ss.map string) ++ ch ']' :: r') :
    l = ss.map string ∧ r = r' := by
  induction ss generalizing l with
  | nil =>
      cases l with
      | nil => exact ⟨rfl, (List.cons.inj h).2⟩
      | cons v l => exact absurd h (dumpElems_ne_bracket d v l _ r')
  | cons s ss ih =>
      cases l with
      | nil => exact absurd h.symm (dumpElems_ne_bracket d' (string s) (ss.map string) _ r)
      | cons v l =>
          rw [List.map_cons, dumpElems_eq, dumpElems_eq, List.append_assoc,
            List.append_assoc] at h
          obtain ⟨rfl, htail⟩ := dump_append_eq_string h
          -- both lists end here, or a separator shows that neither does
          by_cases hl : l = [] <;> by_cases hss : ss = []
          · subst hl hss
            exact ⟨rfl, (List.cons.inj htail).2⟩
          · rw [if_pos hl, if_neg (by simpa using hss)] at htail
            exact absurd (List.cons.inj htail).1 (by decide)
          · rw [if_neg hl, if_pos (by simpa using hss)] at htail
            exact absurd (List.cons.inj htail).1 (by decide)
          · rw [if_neg hl, if_neg (by simpa using hss), List.append_assoc, List.append_assoc]
              at htail
            obtain ⟨rfl, hr⟩ := ih (List.append_cancel_left htail)
            exact ⟨rfl, hr⟩

theorem dump_append_eq_strings {d d' : Nat} {j : JSON} {ss : List Bytes} {r r' : Bytes}
    (h : dump d j ++ r = dump d' (array (ss.map string)) ++ r') :
    j = array (ss.map string) ∧ r = r' := by
  obtain ⟨c, t, hct, -, -, hbracket⟩ := dump_cons d j
  have hhead : c = ch '[' := by
    rw [hct] at h
    exact (List.cons.inj h).1
  obtain ⟨l, rfl⟩ := hbracket hhead
  have htail : dumpElems d l ++ ch ']' :: r = dumpElems d' (ss.map string) ++ ch ']' :: r' := by
    rw [dump, dump, List.append_assoc, List.append_assoc, List.append_assoc,
      List.append_assoc] at h
    exact List.append_cancel_left h
  obtain ⟨rfl, hr⟩ := dumpElems_append_eq_strings htail
  exact ⟨rfl, hr⟩

end JSON

end DeSearch
