import LuaLint.Proofs.Scope.Occurrences
import LuaLint.Proofs.Scope.Precedence

/-!
# The name under the cursor

The editor looks for the first name that an offset touches, where the offset just past a name
counts. Tokens come one after the other, and a name does not end where another one begins, so an
offset within a name finds that name. Only `...` may end where a name begins, and then hides it. It
is never right behind a name.

Main statements: `Lexer.names_apart`, `Reads.quiet`, `Parser.symbolAt_reference`.
-/

namespace LuaLint

open List

/-! ## Tokens -/

/-- The range of one of some tokens. No name begins right behind it, unless it is a name itself. -/
def Span.Discernible (ts : List Token) (s : Span) : Prop :=
  ∃ t ∈ ts, s = ⟨t.pos, t.stop⟩ ∧
    (t.kind.isMention = true ∨ ∀ u ∈ ts, u.kind.isMention = true → t.stop ≠ u.pos)

/-- No name ends where another one begins. -/
theorem Lexer.names_apart {source : Bytes} {t u : Token} (ht : t ∈ codeTokens source)
    (hu : u ∈ codeTokens source) (hname : t.kind = .name) (hname' : u.kind = .name) :
    t.stop ≠ u.pos := by
  rw [Token.stop, Token.text_eq_lexeme (Token.isProper_of_name hname)]
  exact (tiles_tokens source).names_apart (mem_of_mem_filter ht) (mem_of_mem_filter hu) hname
    hname'

theorem Expr.tokens_of_strip {key : Expr} {ts : List Token} (h : Reads (.expr key) ts) {pos : Nat}
    {raw value : Bytes} (hkey : key.strip = .string pos raw value) :
    (∀ u ∈ ts, u.kind.isMention = false) ∧
      ∃ t ∈ ts, (Expr.string pos raw value).span = ⟨t.pos, t.stop⟩ := by
  generalize hp : Phrase.expr key = p at h
  induction h generalizing key with
  | @string t value ht =>
    cases hp
    cases hkey
    refine ⟨forall_mem_singleton.mpr ?_, t, mem_singleton_self t, rfl⟩
    cases ht <;> simp [*, TokenKind.isMention]
  | @paren l r inner ts hl _ hr ih =>
    cases hp
    obtain ⟨hquiet, t, ht, hspan⟩ := @ih inner hkey rfl
    refine ⟨?_, t, by simp [ht], hspan⟩
    simp only [forall_mem_append, forall_mem_singleton]
    exact ⟨⟨by rw [hl.1]; rfl, hquiet⟩, by rw [hr.1]; rfl⟩
  | _ => cases hp <;> simp [Expr.strip] at hkey

/-! ## What stands behind a name -/

/-- No `...` stands right behind a name. The flag says whether there is a name in front of the
tokens. -/
def Quiet : Bool → List Token → Prop
  | _, [] => True
  | named, t :: ts =>
    (named = true → t.kind ≠ .sign .ellipsis) ∧ Quiet (decide (t.kind = .name)) ts

/-- A kind of token other than names and `...`. -/
def TokenKind.Solid (kind : TokenKind) : Prop := kind ≠ .name ∧ kind ≠ .sign .ellipsis

instance (kind : TokenKind) : Decidable kind.Solid := inferInstanceAs (Decidable (_ ∧ _))

theorem BinaryOp.solid_token (op : BinaryOp) : op.token.Solid := by
  cases op <;> decide

theorem UnaryOp.solid_token (op : UnaryOp) : op.token.Solid := by
  cases op <;> decide

/-- A phrase that never begins with `...`, and so may follow a name. -/
def Phrase.Opens : Phrase → Prop
  | .expr e => e.IsCallable ∨ e.IsBareArgument
  | .exprs es => ∀ e ∈ es.head?, e.IsCallable
  | .field _ | .fields _ => False
  | _ => True

theorem Phrase.opens_targets {es : List Expr} (h : ∀ e ∈ es, e.IsTarget) : (exprs es).Opens := by
  intro e he
  have htarget := h e (mem_of_mem_head? he)
  cases e <;> first | exact htarget.elim | trivial

section

variable {named : Bool} {ts us : List Token} {t u : Token}

theorem quiet_nil : Quiet named [] := trivial

theorem Token.Is.quiet {kind : TokenKind} (ht : t.Is kind) (hkind : kind.Solid)
    (hus : Quiet false us) : Quiet named (t :: us) := by
  simp [Quiet, ht.1, hkind.1, hkind.2, hus]

theorem quiet_name (ht : t.kind = .name) (hus : Quiet true us) : Quiet named (t :: us) := by
  simp [Quiet, ht, hus]

theorem Quiet.append (hts : Quiet named ts) (hus : Quiet true us) : Quiet named (ts ++ us) := by
  induction ts generalizing named with
  | nil =>
    cases us with
    | nil => trivial
    | cons u us => exact ⟨fun _ => hus.1 rfl, hus.2⟩
  | cons t ts ih => exact ⟨hts.1, ih hts.2⟩

theorem ReadsNames.quiet {sep : TokenKind} {is : List Ident} (h : ReadsNames sep is ts)
    (hsep : sep.Solid) : Quiet named ts := by
  induction h generalizing named with
  | nil => trivial
  | cons ht hu _ ih => exact ht.quiet hsep (quiet_name hu ih)

theorem ReadsLocal.quiet {n : LocalName} (h : ReadsLocal n ts) : Quiet named ts := by
  cases h with
  | plain ht => exact quiet_name ht trivial
  | attributed ht hl hw hg =>
    refine quiet_name ht (hl.quiet (by decide) (quiet_name hw ?_))
    exact hg.quiet (by decide) trivial

theorem ReadsLocals.quiet {ns : List LocalName} (h : ReadsLocals ns ts) : Quiet named ts := by
  induction h generalizing named with
  | last hn => exact hn.quiet
  | cons hn hc _ ih =>
    rw [append_assoc]
    exact hn.quiet.append (hc.quiet (by decide) ih)

theorem ReadsParams.quiet {is : List Ident} {vararg : Option Nat} (h : ReadsParams is vararg ts) :
    Quiet false ts := by
  induction h with
  | vararg ht => simp [Quiet]
  | last ht => exact quiet_name ht trivial
  | cons ht hc _ ih => exact quiet_name ht (hc.quiet (by decide) ih)

theorem ReadsFuncName.quiet {n : FuncName} (h : ReadsFuncName n ts) : Quiet named ts := by
  cases h with
  | plain ht hns => exact quiet_name ht (hns.quiet (by decide))
  | method ht hns hc hm =>
    rw [append_assoc, append_assoc]
    refine quiet_name ht ((hns.quiet (by decide)).append ?_)
    exact hc.quiet (by decide) (quiet_name hm trivial)

/-- No phrase has `...` right behind a name, by induction on how it is written. -/
theorem Reads.quiet {lawful : Word → Prop} {p : Phrase} (h : Reads p ts) (hw : WellFormed lawful p)
    (hopens : named = Bool.true → p.Opens) : Quiet named ts := by
  -- Wherever two phrases meet without a token between them, the second one begins with no `...`.
  induction h generalizing named with
  | nil ht | true ht | false ht | brk ht | noBranch ht => exact ht.quiet (by decide) trivial
  | number ht => simp [Quiet, ht]
  | string ht => cases ht <;> simp [Quiet, *]
  | vararg ht =>
    refine ⟨fun h => ?_, trivial⟩
    exact (hopens h).elim False.elim False.elim
  | name ht => exact quiet_name ht trivial
  | noExprs | noFields | noStmts => trivial
  | semicolon ht _ ih => exact ht.quiet (by decide) (ih hw (by simp))
  | oneExpr _ ih =>
    cases hw with
    | consExpr he => exact ih he fun h => .inl (hopens h _ rfl)
  | bareArg _ hbare ih =>
    cases hw with
    | bareArg he => exact ih he fun _ => .inr hbare
  | positional _ ih =>
    cases hw with
    | positional he => exact ih he fun h => (hopens h).elim
  | oneField _ ih =>
    cases hw with
    | consField hf => exact ih hf fun h => (hopens h).elim
  | callStmt _ ih =>
    cases hw with
    | callStmt he => exact ih he fun _ => .inl trivial
  | call _ _ ih iha =>
    cases hw with
    | call he hcallable _ hargs =>
      exact (ih he fun _ => .inl hcallable).append (iha hargs fun _ => trivial)
  | consStmt _ _ ih ihs =>
    cases hw with
    | consStmt hs _ hss => exact (ih hs fun _ => trivial).append (ihs hss fun _ => trivial)
  | binary _ ht _ ihl ihr =>
    cases hw with
    | binary hl _ hr =>
      rw [append_assoc]
      refine (ihl hl fun h => (hopens h).elim False.elim False.elim).append ?_
      exact ht.quiet (BinaryOp.solid_token _) (ihr hr (by simp))
  | assign _ _ ha _ _ iht ihv =>
    cases hw with
    | assign _ htargets ht _ hv =>
      rw [append_assoc]
      refine (iht ht fun _ => Phrase.opens_targets htargets).append ?_
      exact ha.quiet (by decide) (ihv hv (by simp))
  | genericFor ht hv hns hn _ hd _ he ihe ih =>
    cases hw with
    | genericFor _ _ _ hes hss =>
      simp only [append_assoc, singleton_append]
      refine ht.quiet (by decide) (quiet_name hv ((hns.quiet (by decide)).append ?_))
      refine hn.quiet (by decide) ((ihe hes (by simp)).append (hd.quiet (by decide) ?_))
      exact (ih hss (by simp)).append (he.quiet (by decide) trivial)
  | steppingFor ht hv ha _ hc _ hc' _ hd _ he ihf ihl ihs ih =>
    cases hw with
    | numericFor _ hfirst hlimit hstep hss =>
      cases hstep with
      | consExpr hstep =>
        simp only [append_assoc, singleton_append]
        refine ht.quiet (by decide) (quiet_name hv (ha.quiet (by decide) ?_))
        refine (ihf hfirst (by simp)).append (hc.quiet (by decide) ?_)
        refine (ihl hlimit (by simp)).append (hc'.quiet (by decide) ?_)
        refine (ihs hstep (by simp)).append (hd.quiet (by decide) ?_)
        exact (ih hss (by simp)).append (he.quiet (by decide) trivial)
  | _ =>
    cases hw
    simp only [append_assoc, singleton_append]
    grind [quiet_nil, Token.Is.quiet, quiet_name, Quiet.append, TokenKind.Solid, Phrase.Opens,
      ReadsFuncName.quiet, ReadsParams.quiet, ReadsLocals.quiet, Expr.IsCallable,
      UnaryOp.solid_token]

/-- A token that ends where another one begins is the one before it. -/
theorem Ordered.adjacent (h : Ordered ts) (ht : t ∈ ts) (hu : u ∈ ts) (hstop : t.stop = u.pos) :
    ∃ before after, ts = before ++ t :: u :: after := by
  obtain ⟨before, rest, rfl⟩ := append_of_mem ht
  have hlt := h.nonempty t ht
  have hlt' := h.nonempty u hu
  obtain ⟨-, hrest, hfirst⟩ := Ordered.append_iff.mp h
  obtain ⟨hlater, hrest'⟩ := pairwise_cons.mp hrest.pairwise
  rcases mem_append.mp hu with hu | hu
  · have hle := hfirst u hu t mem_cons_self
    omega
  rcases mem_cons.mp hu with rfl | hu
  · omega
  cases rest with
  | nil => cases hu
  | cons w rest =>
    rcases mem_cons.mp hu with rfl | hu
    · exact ⟨before, rest, rfl⟩
    · have hle := hlater w mem_cons_self
      have hle' := (pairwise_cons.mp hrest').1 u hu
      have hlt := hrest.nonempty w (by simp)
      omega

theorem Quiet.kind_ne {before after : List Token} (h : Quiet named (before ++ t :: u :: after))
    (ht : t.kind = .name) : u.kind ≠ .sign .ellipsis := by
  induction before generalizing named with
  | nil => exact h.2.1 (by simpa using ht)
  | cons w before ih => exact ih h.2

end

/-! ## Indexes -/

section

variable {ts : List Token}

theorem Reads.discernible_key {object key : Expr} {lbrack rbrack pos : Nat} {raw value : Bytes}
    {run : List Token} (h : Reads (.expr (.element object lbrack key rbrack)) run)
    (hrun : run <:+: ts) (hts : Ordered ts) (hkey : key.strip = .string pos raw value) :
    (Expr.string pos raw value).span.Discernible ts := by
  obtain ⟨before, after, rfl⟩ := hrun
  cases h with
  | @element _ _ l r us ks _ _ hread hr =>
    obtain ⟨hquiet, t, ht, hspan⟩ := Expr.tokens_of_strip hread hkey
    refine ⟨t, by simp [ht], hspan, .inr fun u hu hmention hstop => ?_⟩
    have hsplit : before ++ (us ++ [l] ++ ks ++ [r]) ++ after =
        before ++ us ++ [l] ++ (ks ++ r :: after) := by simp
    rw [hsplit] at hts hu
    obtain ⟨-, hlater, hfirst⟩ := Ordered.append_iff.mp hts
    obtain ⟨-, hrest, hbracket⟩ := Ordered.append_iff.mp hlater
    have hle := hbracket t ht r mem_cons_self
    have hlt := hlater.nonempty t (mem_append_left _ ht)
    rcases mem_append.mp hu with hbefore | hu
    · have hle := hfirst u hbefore t (mem_append_left _ ht)
      have hlt := hts.nonempty u hu
      omega
    rcases mem_append.mp hu with hu | hu
    · cases (hquiet u hu).symm.trans hmention
    rcases mem_cons.mp hu with rfl | hu
    · rw [hr.1] at hmention
      cases hmention
    · have hle := (pairwise_cons.mp hrest.pairwise).1 u hu
      have hlt := hrest.nonempty r mem_cons_self
      omega

theorem discernible_links (hts : Ordered ts) {ls : List Expr}
    (hls : Sited (fun l run => Reads (.expr l) run) ls ts) :
    ∀ entry ∈ staticIndexing ls, entry.span.Discernible ts := by
  fun_induction staticIndexing ls with
  | case1 object n rest ih =>
    obtain ⟨⟨run, hrun, hread⟩, hrest⟩ := forall_mem_cons.mp hls
    refine forall_mem_cons.mpr ⟨?_, ih hrest⟩
    cases hread with
    | @fieldAccess _ d t us _ _ hname =>
      exact ⟨t, hrun.subset (by simp), rfl, .inl (by rw [hname]; rfl)⟩
  | case2 object lbrack key rbrack rest pos raw value hkey ih =>
    obtain ⟨⟨run, hrun, hread⟩, hrest⟩ := forall_mem_cons.mp hls
    exact forall_mem_cons.mpr ⟨hread.discernible_key hrun hts hkey, ih hrest⟩
  | case3 => exact forall_mem_nil _
  | case4 => exact forall_mem_nil _

theorem Reads.discernible_index {e : Expr} {run : List Token} (h : Reads (.expr e) run)
    (hrun : run <:+: ts) (hts : Ordered ts) :
    ∀ entry ∈ staticIndexing e.links, entry.span.Discernible ts := by
  refine discernible_links hts fun l hl => ?_
  have hmem := Outline.mem_nodes_iff.mpr ⟨_, Expr.holds_link hl, l.node_outline⟩
  rw [Outline.nodes_eq] at hmem
  exact (h.fits.2.2.grounded.widen hrun) _ hmem

end

/-! ## References -/

theorem ScopeGraph.span_of_referenceSymbol? {g : ScopeGraph} {off : Int} {ref : Reference}
    {symbol : EditorSymbol} (h : g.referenceSymbol? off ref = some symbol) :
    symbol.span.touches off = true ∧
      (symbol.span = ref.span ∨ ∃ entry ∈ ref.indexing, symbol.span = entry.span) := by
  unfold referenceSymbol? at h
  split at h
  · next htouches =>
    cases h
    exact ⟨htouches, .inl rfl⟩
  split at h
  · cases h
  · obtain ⟨i, hi, h⟩ := Option.bind_eq_some_iff.mp h
    obtain ⟨entry, hentry, h⟩ := Option.bind_eq_some_iff.mp h
    cases h
    obtain ⟨hlt, htouches, -⟩ := findIdx?_eq_some_iff_getElem.mp hi
    obtain rfl : ref.indexing[i] = entry :=
      Option.some.inj ((getElem?_eq_getElem hlt).symm.trans hentry)
    exact ⟨htouches, .inr ⟨_, mem_of_getElem? hentry, rfl⟩⟩

namespace Parser

variable {source : Bytes} {chunk : Chunk} {ref : Reference}

theorem discernible_of_mention (h : parse source = .ok chunk) {m : Mention}
    (hm : m ∈ chunk.mentions) : m.span.Discernible (Lexer.codeTokens source) := by
  obtain ⟨t, ht, -, hspan⟩ := exists_token_of_mention h hm
  obtain ⟨hcode, hmention⟩ := mem_filter.mp ht
  exact ⟨t, hcode, hspan, .inl hmention⟩

theorem mention_of_reference (href : ref ∈ chunk.resolve.references) :
    ∃ role, ⟨role, ref.name, ref.span⟩ ∈ chunk.mentions := by
  obtain ⟨e, he, hu⟩ := Chunk.exists_use_of_reference href
  obtain ⟨role, -, hm⟩ := (ScopeEvent.namedIn_iff_of_use? hu).mp (chunk.named_events.names e he)
  exact ⟨role, hm⟩

/-- The indexes of a reference stand at tokens of their own. -/
theorem discernible_index (h : parse source = .ok chunk) (href : ref ∈ chunk.resolve.references)
    {entry : IndexEntry} (hentry : entry ∈ ref.indexing) :
    entry.span.Discernible (Lexer.codeTokens source) := by
  obtain ⟨e, he, hu⟩ := Chunk.exists_use_of_reference href
  have hordered := (nested_of_parse h).ordered
  replace hentry : entry ∈ ref.use.usage.indexing := hentry
  generalize ref.use = u at hu hentry
  -- An index comes from an expression, an assigned target or the name of a function.
  cases chunk.arises he with
  | read _ _ hread =>
    cases hu
    rcases hread with hnil | ⟨e, hnode, hlinks⟩
    · rw [hnil] at hentry
      cases hentry
    · obtain ⟨run, hrun, hread⟩ := sited_nodes h _ hnode
      exact Reads.discernible_index hread hrun hordered entry (hlinks ▸ hentry)
  | @chain targets values equal e i value hs htarget _ _ =>
    cases hu
    obtain ⟨run, hrun, hread⟩ := sited_nodes h _ hs
    replace hentry : entry ∈ (e.usage (some .assign) value).indexing := hentry
    rw [e.indexing_usage] at hentry
    cases hread with
    | assign _ htargets _ _ _ =>
      obtain ⟨part, hpart, hread⟩ := htargets.fits.1.grounded.sited_exprs e htarget
      have hpart := hpart.trans (infix_append_left.trans (infix_append_left.trans hrun))
      exact hread.discernible_index hpart hordered entry hentry
  | @fieldName pos n body hs =>
    cases hu
    obtain ⟨i, hi, rfl⟩ := mem_map.mp hentry
    have hwalks := (Block.acts (r := .still) .empty chunk.block).walks _ (mem_singleton_self _)
    have hsub := hwalks.mentions _ (Chunk.mem_stmts.mpr hs)
    obtain ⟨role, hi⟩ : ∃ role, i.mention role ∈ n.mentions := by
      rcases mem_append.mp hi with hi | hi
      · exact ⟨.field, mem_append_left _ (mem_cons_of_mem _ (mem_map_of_mem hi))⟩
      · exact ⟨.method, mem_append_right _ (mem_map_of_mem hi)⟩
    exact discernible_of_mention h (hsub (mem_append_left _ hi))
  | _ => cases hu <;> cases hentry

/-- Where the cursor stands within a reference, all that it touches is the reference. Just past
`...` it touches that as well. -/
theorem eq_span_of_touches (h : parse source = .ok chunk) (href : ref ∈ chunk.resolve.references)
    {off : Nat} (hstart : ref.span.start ≤ off) (hstop : off < ref.span.stop)
    (hdots : off = ref.span.start → ∀ t ∈ Lexer.codeTokens source, t.stop = off →
      t.kind ≠ .sign .ellipsis)
    {span : Span} (hspan : span.Discernible (Lexer.codeTokens source))
    (htouches : span.touches off = true) : span = ref.span := by
  obtain ⟨role, hm⟩ := mention_of_reference href
  obtain ⟨u, hu, hname, hplace⟩ := exists_token_of_mention h hm
  obtain ⟨hcode, hmention⟩ := mem_filter.mp hu
  obtain ⟨t, ht, rfl, hkind⟩ := hspan
  have hordered := (nested_of_parse h).ordered
  obtain ⟨hle, hle'⟩ := Span.touches_iff.mp htouches
  change ref.span = _ at hplace
  rw [hplace] at hstart hstop hdots ⊢
  -- Another token can only end where the name begins.
  rcases eq_or_of_pairwise hordered.pairwise ht hcode with rfl | hapart
  · rfl
  have hpast : t.stop = off ∧ off = u.pos := by
    simp only at hstart hstop hle hle'
    omega
  have hmeet : t.stop = u.pos := hpast.1.trans hpast.2
  exfalso
  rcases hkind with hkind | hkind
  · have hfirst : t.kind = .name := (kind_of_names (mem_filter.mpr ⟨ht, hkind⟩)).resolve_right
      fun hellipsis => hdots hpast.2 t ht hpast.1 hellipsis.1
    rcases kind_of_names hu with hsecond | ⟨hellipsis, -⟩
    · exact Lexer.names_apart ht hcode hfirst hsecond hmeet
    · obtain ⟨before, after, hsplit⟩ := hordered.adjacent ht hcode hmeet
      have hread := (chunk_of_parse h).1
      have hquiet : Quiet false (Lexer.codeTokens source) :=
        hread.reads.quiet hread.wellFormed (by simp)
      rw [hsplit] at hquiet
      exact hquiet.kind_ne hfirst hellipsis
  · exact hkind u hcode hmention hmeet

/-- An offset within a reference finds the reference, and the editor finds a symbol there with its
range, unless the reference begins at the offset and `...` ends there. -/
theorem symbolAt_reference (h : parse source = .ok chunk) {k : Nat}
    (href : chunk.resolve.references[k]? = some ref) {off : Nat} (hstart : ref.span.start ≤ off)
    (hstop : off < ref.span.stop)
    (hdots : off = ref.span.start → ∀ t ∈ Lexer.codeTokens source, t.stop = off →
      t.kind ≠ .sign .ellipsis) :
    chunk.resolve.referenceAt? off = some k ∧
      ∃ symbol, chunk.resolve.symbolAt? off = some symbol ∧ symbol.span = ref.span := by
  have hmem := Array.mem_of_getElem? href
  have htouches : ref.span.touches off = true := Span.touches_iff.mpr ⟨hstart, Nat.le_of_lt hstop⟩
  -- Whatever the graph keeps at this place has the span of the reference.
  have hsame : ∀ {span : Span}, span.Discernible (Lexer.codeTokens source) →
      span.touches off = true → span = ref.span :=
    eq_span_of_touches h hmem hstart hstop hdots
  have hplace : ∀ r ∈ chunk.resolve.references, r.span.Discernible (Lexer.codeTokens source) := by
    intro r hr
    obtain ⟨role, hm⟩ := mention_of_reference hr
    exact discernible_of_mention h hm
  constructor
  · obtain ⟨hlt, rfl⟩ := Array.getElem?_eq_some_iff.mp href
    refine Array.findIdx?_eq_some_iff_getElem.mpr ⟨hlt, htouches, fun j hj hother => ?_⟩
    have hspan := hsame (hplace _ (Array.getElem_mem _)) hother
    exact Nat.ne_of_lt hj (reference_index_unique h (Array.getElem?_eq_getElem _) href
      (congrArg Span.start hspan))
  · have hfound : (chunk.resolve.references.toList.findSome?
        (chunk.resolve.referenceSymbol? off)).isSome := by
      rw [List.findSome?_isSome_iff]
      exact ⟨ref, hmem.val, by simp [ScopeGraph.referenceSymbol?, htouches]⟩
    obtain ⟨symbol, hsymbol⟩ := Option.isSome_iff_exists.mp hfound
    refine ⟨symbol, by rw [ScopeGraph.symbolAt?, hsymbol, Option.some_or], ?_⟩
    -- The first answer may come from an earlier reference, but from the same place.
    obtain ⟨r, hr, hfrom⟩ := List.exists_of_findSome?_eq_some hsymbol
    obtain ⟨htouched, hspan | ⟨entry, hentry, hspan⟩⟩ := ScopeGraph.span_of_referenceSymbol? hfrom
    · exact hsame (hspan ▸ hplace r (Array.mem_def.mpr hr)) htouched
    · exact hsame (hspan ▸ discernible_index h (Array.mem_def.mpr hr) hentry) htouched

/-- The beginning of a value right behind the sign. -/
theorem symbolAt_reference_value : ∃ chunk, parse "t.x=..." = .ok chunk ∧
    chunk.resolve.referenceAt? 4 = some 0 ∧
      ∃ symbol, chunk.resolve.symbolAt? 4 = some symbol ∧ symbol.span = ⟨4, 7⟩ := by
  obtain ⟨chunk, ref, hparse, href, hspan⟩ : ∃ chunk ref, parse "t.x=..." = .ok chunk ∧
      chunk.resolve.references[0]? = some ref ∧ ref.span = ⟨4, 7⟩ := ⟨_, _, rfl, rfl, rfl⟩
  have hbefore : ∀ t ∈ Lexer.codeTokens "t.x=...", t.stop = 4 → t.kind = .sign .assign := by
    decide +kernel
  refine ⟨chunk, hparse, hspan ▸ symbolAt_reference hparse href (by rw [hspan])
    (by rw [hspan]; decide) ?_⟩
  intro _ t ht hstop
  simp [hbefore t ht hstop]

/-- The name of a statement that begins right behind `...` is hidden. -/
theorem symbolAt_behind_vararg : ∃ chunk ∈ (parse "local a = ...b = 1").toOption,
    ∃ ref ∈ chunk.resolve.references[2]?, ref.span = ⟨13, 14⟩ ∧
      chunk.resolve.referenceAt? 13 = some 0 ∧
      (chunk.resolve.symbolAt? 13).map EditorSymbol.span = some ⟨10, 13⟩ := by
  decide +kernel

end Parser

end LuaLint
