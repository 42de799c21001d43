import HiveQuery.Proofs.Quoting
import HiveQuery.Proofs.Traversal
import HiveQuery.Sql.Text

/-!
# Comments in statements

Two minus signs outside of literals and quoted names make a comment of what follows. Statements are put together
from words, of which only a negation joins a minus sign to what stands behind it.
-/

namespace HiveQuery
set_option autoImplicit false
open List Sql

namespace Sql

/-! ## Reading a statement -/

inductive Place where
  | code
  | literal
  /-- In a literal behind a backslash. -/
  | taken
  | name
deriving DecidableEq

/-- Where the character behind `c` stands. A doubled back-quote closes a name and opens it again. -/
def Place.next (c : Char) : Place → Place
  | .code => if c = quote then .literal else if c = backquote then .name else .code
  | .literal => if c = quote then .code else if c = backslash then .taken else .literal
  | .taken => .literal
  | .name => if c = backquote then .code else .name

/-- Do two minus signs stand side by side outside of literals and quoted names? -/
def opensComment (p : Place) : List Char → Bool
  | [] => false
  | c :: cs => p = .code && c = '-' && cs.head? = some '-' || opensComment (p.next c) cs

@[simp] theorem opensComment_code (c : Char) (cs : List Char) :
    opensComment .code (c :: cs) = (c = '-' && cs.head? = some '-' ||
      opensComment (if c = '\x27' then .literal else if c = '\x60' then .name else .code) cs) := rfl

/-- A text that begins and ends outside of quotes and opens a comment exactly if `p` holds, whatever follows. -/
abbrev Opens (p : Prop) (text : String) : Prop :=
  ∀ rest, opensComment .code (text.toList ++ rest) = true ↔ p ∨ opensComment .code rest = true

variable {p q minus : Prop} {text a b : String}

theorem Opens.of_iff (h : Opens p text) (hpq : p ↔ q) : Opens q text := fun rest => by
  rw [h, hpq]

theorem Opens.append (ha : Opens p a) (hb : Opens q b) : Opens (p ∨ q) (a ++ b) := fun rest => by
  rw [String.toList_append, append_assoc, ha, hb, or_assoc]

def isBare (c : Char) : Bool :=
  c ≠ quote && c ≠ backquote && c ≠ '-'

def Bare (text : String) : Prop :=
  ∀ c ∈ text.toList, isBare c = true

-- the characters of the text are tried, not all characters
instance (text : String) : Decidable (Bare text) :=
  decidableBAll (isBare · = true) text.toList

theorem Bare.append (ha : Bare a) (hb : Bare b) : Bare (a ++ b) := by
  simpa [Bare, or_imp, forall_and] using ⟨ha, hb⟩

theorem Bare.of_subset {cs : List Char} (h : Bare text) (hcs : cs ⊆ text.toList) : Bare (String.ofList cs) := by
  rw [Bare, String.toList_ofList]
  exact fun c hc => h c (hcs hc)

theorem opensComment_flatMap {p : Place} {f : Char → List Char} {cs : List Char}
    (h : ∀ c ∈ cs, ∀ rest, opensComment p (f c ++ rest) = opensComment p rest) (rest : List Char) :
    opensComment p (cs.flatMap f ++ rest) = opensComment p rest := by
  induction cs with
  | nil => rfl
  | cons c cs ih =>
    rw [forall_mem_cons] at h
    rw [flatMap_cons, append_assoc, h.1, ih h.2]

theorem Opens.bare (h : Bare text) : Opens False text := fun rest => by
  rw [false_or, ← flatMap_singleton' text.toList, opensComment_flatMap fun c hc rest => ?_]
  have hc := h c hc
  simp only [isBare, Bool.and_eq_true, decide_eq_true_eq] at hc
  rw [singleton_append, opensComment]
  simp [Place.next, hc]

theorem Opens.empty : Opens False "" := .bare (by decide)

theorem isBare_of_word {c : Char} (h : isWordChar c = true) : isBare c = true := by
  simp only [isBare, Bool.and_eq_true, decide_eq_true_eq]
  refine ⟨⟨?_, ?_⟩, ?_⟩ <;> rintro rfl <;> exact absurd h (by decide)

theorem Opens.quoteString (s : String) : Opens False (quoteString s) := fun rest => by
  have hescaped : ∀ c ∈ s.toList, ∀ rest, opensComment .literal (escaped c ++ rest) = opensComment .literal rest := by
    intro c _ rest
    rw [escaped]
    split
    · simp [opensComment, Place.next, quote, backslash]
    · next h => simp [opensComment, Place.next, not_or.1 h]
  rw [toList_quoteString, cons_append, append_assoc]
  simp [opensComment, Place.next, opensComment_flatMap hescaped, quote]

theorem Opens.quoteIdent (name : String) : Opens False (quoteIdent name) := by
  by_cases h : PlainName name
  · rw [quoteIdent_of_plain h]
    exact .bare fun c hc => isBare_of_word (isWordChar_iff.2 (h.chars c hc))
  · intro rest
    have hdoubled : ∀ c ∈ name.toList, ∀ rest, opensComment .name
        ((if c = backquote then [backquote, backquote] else [c]) ++ rest) = opensComment .name rest := by
      intro c _ rest
      split
      · simp [opensComment, Place.next, backquote, quote]
      · next h => simp [opensComment, Place.next, h]
    rw [toList_quoteIdent h, cons_append, append_assoc, replaceChar]
    simp [opensComment, Place.next, opensComment_flatMap hdoubled, show backquote ≠ quote by decide,
      show backquote ≠ '-' by decide]

/-! ## Scalars -/

/-- The text of a scalar, which begins with a minus sign exactly if it is signed. -/
structure Spells (minus p : Prop) (text : String) : Prop where
  opens : Opens p text
  starts : text.toList.head? ≠ none ∧ (text.toList.head? = some '-' ↔ minus)

theorem Spells.of_iff {minus' : Prop} (h : Spells minus p text) (hminus : minus ↔ minus') (hpq : p ↔ q) :
    Spells minus' q text := by
  rwa [← hminus, ← hpq]

theorem Spells.append (ha : Spells minus p a) (hb : Opens q b) : Spells minus (p ∨ q) (a ++ b) where
  opens := ha.opens.append hb
  starts := by
    obtain ⟨c, hc⟩ := Option.ne_none_iff_exists'.1 ha.starts.1
    simpa [hc] using ha.starts.2

theorem Spells.word (hne : text ≠ "") (h : Bare text) : Spells False False text where
  opens := .bare h
  starts := by
    obtain ⟨c, cs, htext⟩ := exists_cons_of_ne_nil (String.toList_eq_nil_iff.not.2 hne)
    have hc := h c (htext ▸ mem_cons_self)
    simp only [isBare, Bool.and_eq_true, decide_eq_true_eq] at hc
    simp [htext, hc]

theorem Spells.prefixed (h : Spells False p text) : Spells True p ("-" ++ text) where
  opens rest := by
    obtain ⟨hne, hminus⟩ := h.starts
    obtain ⟨c, hc⟩ := Option.ne_none_iff_exists'.1 hne
    have hunsigned : c ≠ '-' := by simpa [hc] using hminus
    simp [hc, hunsigned, h.opens rest]
  starts := by simp

theorem Spells.signed {negative : Bool} (h : Spells False p text) :
    Spells (negative = true) p ((if negative then "-" else "") ++ text) := by
  cases negative with
  | false => simpa using h
  | true => simpa using h.prefixed

theorem toList_toString_nat (n : Nat) : (toString n).toList = Nat.toDigits 10 n := Nat.toList_repr

theorem Bare.nat (n : Nat) : Bare (toString n) := by
  intro c hc
  rw [toList_toString_nat] at hc
  have hdigit : c.isDigit = true := Nat.isDigit_of_mem_toDigits (by decide) (by decide) hc
  exact isBare_of_word (by simp [isWordChar, Char.isAlphanum, hdigit])

theorem Bare.zeros (n : Nat) : Bare (Double.zeros n) := by
  intro c hc
  rw [Double.zeros, String.toList_ofList] at hc
  rw [eq_of_mem_replicate hc]
  decide

theorem Spells.nat (n : Nat) : Spells False False (toString n) := by
  refine .word (fun h => ?_) (.nat n)
  have hdigits := toList_toString_nat n
  rw [h] at hdigits
  exact Nat.toDigits_ne_nil hdigits.symm

theorem Spells.int (i : Int) : Spells (i < 0) False (toString i) := by
  cases i with
  | ofNat n => exact (nat n).of_iff (by simp) .rfl
  | negSucc n => exact (nat (n + 1)).prefixed.of_iff (by simp [Int.negSucc_lt_zero]) .rfl

theorem Spells.positional (point : Bool) (d : Number.Scientific) : Spells False False (Double.positional point d) := by
  rw [Double.positional]
  split
  · refine (((nat d.digits).append (.bare ?_)).append (.bare ?_)).of_iff .rfl (by simp)
    · split
      · decide
      · exact .zeros _
    · split <;> decide
  · have hpadded := (Bare.zeros ((-d.exponent).toNat + 1 - (toString d.digits).length)).append (.nat d.digits)
    exact .word (by simp)
      (((hpadded.of_subset (take_subset _ _)).append (by decide)).append (hpadded.of_subset (drop_subset _ _)))

theorem Spells.exponential (d : Number.Scientific) : Spells False False (Double.exponential d) := by
  refine (append (.word (by simp) ?_) (int _).opens).of_iff .rfl (by simp)
  refine ((((Bare.nat d.digits).of_subset (take_subset _ _)).append ?_).append (by decide))
  split
  · decide
  · exact .append (by decide) ((Bare.nat d.digits).of_subset (drop_subset _ _))

theorem Spells.literal (x : Float) :
    Spells (x.isNaN = false ∧ Double.isNegative x = true) False (Double.literal x) := by
  rw [Double.literal, Double.render]
  split
  · next hnan =>
    refine (word (by decide) (by decide)).of_iff (iff_of_false id fun h => ?_) .rfl
    exact Bool.false_ne_true (h.1.symm.trans hnan)
  · next hnan =>
    refine (signed ?_).of_iff (and_iff_right (Bool.eq_false_iff.2 hnan)).symm .rfl
    split
    · split
      · exact .positional _ _
      · exact .exponential _
    · exact .word (by decide) (by decide)

end Sql

@[simp] def Value.isSigned : Value → Bool
  | .int i => i.toInt < 0
  | .double x => !x.isNaN && Double.isNegative x
  | .decimal d => d.negative
  | _ => false

theorem Sql.Spells.value (v : Value) : Spells (v.isSigned = true) False (value v) := by
  cases v with
  | int i => exact (Spells.int i.toInt).of_iff (by simp) .rfl
  | double x => exact (Spells.literal x).of_iff (by simp) .rfl
  | decimal d =>
    have htext : Spells (d.negative = true) False d.text := by
      refine .signed ?_
      split
      · exact .nat _
      · exact .positional _ _
    exact (htext.append (.bare (by decide))).of_iff .rfl (by simp)
  | string s => exact ⟨.quoteString s, by simp [Sql.value, toList_quoteString, quote]⟩
  | timestamp t =>
    exact (Spells.append (.word (by decide) (by decide)) (.quoteString _)).of_iff (by simp) (by simp)
  | boolean b => cases b <;> exact (Spells.word (by decide) (by decide)).of_iff (by simp) .rfl
  | null => exact (Spells.word (by decide) (by decide)).of_iff (by simp) .rfl

/-! ## Trees -/

@[simp] def Tree.isSigned : Tree → Bool
  | .constant v => v.isSigned
  | .undefined _ => (Value.double Double.undefined).isSigned
  | .outerJoined _ t => t.isSigned
  | .scalarSubquery q _ => q.isSigned
  | _ => false

/-- The trees directly below a tree that its text has parts for. -/
@[simp] def Tree.spelled : Tree → List Tree
  | .outerJoined _ t => [t]
  | t => t.children

@[simp] def Tree.negatesSigned : Tree → Bool
  | .unary .negate t => t.isSigned
  | _ => false

/-- The text of a tree has a part with two minus signs. -/
@[mk_iff]
inductive Tree.DoublesMinus : Tree → Prop
  | node {t : Tree} : t.negatesSigned = true → DoublesMinus t
  | part {t a : Tree} : a ∈ t.spelled → DoublesMinus a → DoublesMinus t

variable {cx : Sql.Context} {t a : Tree} {text : String} {texts : List String} {o : Option Tree} {s : Select Tree}

structure Tree.Scanned (cx : Sql.Context) (t : Tree) : Prop where
  scalar : ∀ text, t.scalarSql cx = .ok text → Sql.Spells (t.isSigned = true) t.DoublesMinus text
  source : ∀ text, t.sourceSql cx = .ok text → Sql.Opens t.DoublesMinus text

theorem Sql.spells_name {x : Alias} (h : cx.name x = .ok text) : Spells False False text := by
  unfold Sql.Context.name at h
  split at h
  · cases h
    exact (Spells.append (.word (by decide) (by decide)) (.bare (.nat _))).of_iff .rfl (by simp)
  · cases h

abbrev Sql.OpenAll {α : Type} (P : α → Prop) (as : List α) (texts : List String) : Prop :=
  Forall₂ (fun a text => Opens (P a) text) as texts

section Lists

variable {α : Type} {P : α → Prop} {as : List α} {p : Prop}

theorem Sql.OpenAll.intercalate {sep : String} (hsep : Bare sep) (h : OpenAll P as texts) :
    Opens (∃ a ∈ as, P a) (sep.intercalate texts) := by
  induction h with
  | nil => exact Opens.empty.of_iff (by simp)
  | cons ha has ih =>
    cases has with
    | nil => simpa using ha
    | cons hb has =>
      rw [String.intercalate_cons_cons]
      exact ((ha.append (.bare hsep)).append ih).of_iff (by simp)

theorem Sql.OpenAll.ifEmpty {absent present : String} (h : OpenAll P as texts) (habsent : Bare absent)
    (hpresent : Opens (∃ a ∈ as, P a) present) :
    Opens (∃ a ∈ as, P a) (if texts.isEmpty then absent else present) := by
  cases h with
  | nil => exact (Opens.bare habsent).of_iff (by simp)
  | cons ha has => exact hpresent

theorem Sql.OpenAll.list (h : OpenAll P as texts) : Opens (∃ a ∈ as, P a) (list texts) := h.intercalate (by decide)

theorem Sql.OpenAll.clause {head : String} (hhead : Bare head) (h : OpenAll P as texts) :
    Opens (∃ a ∈ as, P a) (clause head texts) :=
  h.ifEmpty (by decide) (((Opens.bare hhead).append h.list).of_iff (by simp))

theorem Sql.opens_tableName (name : String) : Opens False (tableName name) := by
  have hparts : OpenAll (fun _ => False) (name.splitOn ".") ((name.splitOn ".").map quoteIdent) :=
    forall₂_map_right_iff.2 (forall₂_same.2 fun part _ => .quoteIdent part)
  exact (hparts.intercalate (by decide)).of_iff (by simp)

theorem Sql.Opens.directed (h : Opens p text) (d : Direction) : Opens p (directed d text) := by
  cases d with
  | ascending => exact h
  | descending => exact (h.append (.bare (by decide))).of_iff (by simp)

theorem Sql.Opens.declaration (h : Opens p text) (name : String) (t : Tree) : Opens p (declaration name t text) := by
  have hnamed : Opens p (text ++ " AS " ++ Sql.quoteIdent name) :=
    ((h.append (.bare (by decide))).append (.quoteIdent name)).of_iff (by simp)
  unfold Sql.declaration
  split
  · split
    · exact h
    · exact hnamed
  · exact hnamed

theorem openAll_mapM {value : α → Tree} {around : α → String → String}
    (h : as.mapM (fun a => around a <$> (value a).scalarSql cx) = .ok texts)
    (has : ∀ t ∈ as.map value, t.Scanned cx)
    (haround : ∀ {p : Prop} {text : String} (a : α), Opens p text → Opens p (around a text)) :
    OpenAll Tree.DoublesMinus (as.map value) texts := by
  refine forall₂_map_left_iff.2 (forall₂_imp_mem (mapM_eq_ok.1 h) fun a text ha htext => ?_)
  obtain ⟨inner, hinner, ⟨⟩⟩ := bind_eq_ok.1 htext
  exact haround a ((has _ (mem_map_of_mem ha)).scalar inner hinner).opens

end Lists

theorem openAll_listSql {ts : List Tree} (h : listSql cx ts = .ok texts) (hts : ∀ t ∈ ts, t.Scanned cx) :
    OpenAll Tree.DoublesMinus ts texts := by
  rw [listSql_eq] at h
  exact forall₂_imp_mem (mapM_eq_ok.1 h) fun t text ht htext => ((hts t ht).scalar text htext).opens

theorem openAll_keysSql {ks : List (SortKey Tree)} {invert : Bool} (h : keysSql cx invert ks = .ok texts)
    (hks : ∀ t ∈ ks.map SortKey.value, t.Scanned cx) : OpenAll Tree.DoublesMinus (ks.map SortKey.value) texts := by
  rw [keysSql_eq] at h
  exact openAll_mapM h hks fun k h => h.directed _

theorem opens_conditionSql {word : String} (hword : Bare word) (h : ∀ a ∈ o.toList, a.Scanned cx)
    (htext : conditionSql cx word o = .ok text) : Opens (∃ a ∈ o.toList, a.DoublesMinus) text := by
  cases o with
  | none =>
    cases htext
    exact Sql.Opens.empty.of_iff (by simp)
  | some a =>
    obtain ⟨inner, hinner, ⟨⟩⟩ := bind_eq_ok.1 htext
    exact ((Sql.Opens.bare hword).append ((h a (by simp)).scalar inner hinner).opens).of_iff (by simp)

theorem opens_fromSql (h : ∀ a ∈ o.toList, a.Scanned cx) (htext : fromSql cx o = .ok text) :
    Opens (∃ a ∈ o.toList, a.DoublesMinus) text := by
  cases o with
  | none =>
    cases htext
    exact Sql.Opens.empty.of_iff (by simp)
  | some a =>
    obtain ⟨inner, hinner, ⟨⟩⟩ := bind_eq_ok.1 htext
    exact ((Sql.Opens.bare (by decide)).append ((h a (by simp)).source inner hinner)).of_iff (by simp)

theorem opens_limitOf (htext : limitOf o = .ok text) : Opens (∃ a ∈ o.toList, a.DoublesMinus) text := by
  unfold limitOf at htext
  split at htext
  · cases htext
    exact Sql.Opens.empty.of_iff (by simp)
  · split at htext
    · cases htext
      refine ((Sql.Opens.bare (by decide)).append (.bare (.nat _))).of_iff ?_
      have hconstant (v : Value) : ¬(Tree.constant v).DoublesMinus := by rintro (⟨⟨⟩⟩ | ⟨⟨⟩, _⟩)
      simp [hconstant]
    · cases htext
  · cases htext

theorem Select.spells_sql (h : ∀ a ∈ s.clauses, a.Scanned cx) (htext : s.sql cx = .ok text) :
    Spells False (∃ a ∈ s.clauses, a.DoublesMinus) text := by
  cases s with
  | mk label columns source filter order group distinct skip take reverse cluster =>
    simp only [clauses, forall_mem_append] at h
    obtain ⟨⟨⟨⟨⟨⟨⟨hsource, hfilter⟩, horder⟩, hgroup⟩, hcluster⟩, -⟩, -⟩, hcolumns⟩ := h
    rw [sql] at htext
    split at htext
    · cases htext
    · next hskip =>
      obtain rfl : skip = none := by simpa using hskip
      simp only [bind_eq_ok, pure_eq_ok, columnsSql_eq] at htext
      obtain ⟨columnTexts, hcolumnTexts, sourceText, hsourceText, filterText, hfilterText, groupTexts, hgroupTexts,
        clusterTexts, hclusterTexts, keyTexts, hkeyTexts, limitText, hlimitText, rfl⟩ := htext
      split at hkeyTexts
      · cases hkeyTexts
      have hcolumnOpen := openAll_mapM hcolumnTexts hcolumns fun c h => h.declaration c.name c.value
      have hdistinct : Opens False (if distinct then "DISTINCT " else "") := by
        split <;> exact .bare (by decide)
      have hword : Spells False False "SELECT " := .word (by decide) (by decide)
      refine ((((((((hword.append hdistinct).append (hcolumnOpen.ifEmpty (by decide) hcolumnOpen.list)).append
        (opens_fromSql hsource hsourceText)).append (opens_conditionSql (by decide) hfilter hfilterText)).append
        ((openAll_listSql hgroupTexts hgroup).clause (by decide))).append
        ((openAll_listSql hclusterTexts hcluster).clause (by decide))).append
        ((openAll_keysSql hkeyTexts horder).clause (by decide))).append (opens_limitOf hlimitText)).of_iff .rfl ?_
      simp only [clauses, mem_append, or_and_right, exists_or, Option.toList_none, not_mem_nil,
        false_or, or_false]
      exact iff_of_eq (by ac_rfl)

theorem Tree.spells_scalarSql (plain : ∀ p ∈ t.parameter?, isPlainWord p.name.toList = true)
    (h : ∀ a ∈ t.spelled, a.Scanned cx) (htext : t.scalarSql cx = .ok text) :
    Spells (t.isSigned = true)
      (t.negatesSigned = true ∨ ∃ a ∈ t.spelled, a.DoublesMinus) text := by
  cases t with
  | member | record | entity | projection | table | join => cases htext
  | constant | undefined =>
    cases htext
    exact (Sql.Spells.value _).of_iff .rfl (by simp)
  | parameter p =>
    cases htext
    have hname : Sql.Bare p.name := fun c hc => Sql.isBare_of_word ((Sql.isPlainWord_iff.1 (plain p rfl)).2.1 c hc)
    refine ⟨fun rest => ?_, by simp [Sql.parameter]⟩
    simp [Sql.parameter, Sql.Opens.bare hname]
  | outerJoined test a => exact ((h a mem_cons_self).scalar text htext).of_iff .rfl (by simp)
  | scalarSubquery q type => exact ((h q mem_cons_self).scalar text htext).of_iff .rfl (by simp)
  | column c =>
    obtain ⟨source, hsource, ⟨⟩⟩ := bind_eq_ok.1 htext
    have hpoint : Opens False "." := .bare (by decide)
    exact (((spells_name hsource).append hpoint).append (.quoteIdent c.name)).of_iff (by simp)
      (by simp)
  | select s i =>
    obtain ⟨inner, hinner, ⟨⟩⟩ := bind_eq_ok.1 htext
    refine ⟨fun rest => ?_, by simp⟩
    simp [(Select.spells_sql h hinner).opens]
  | binary op l r =>
    obtain ⟨left, hl, htext⟩ := bind_eq_ok.1 htext
    obtain ⟨right, hr, ⟨⟩⟩ := bind_eq_ok.1 htext
    have hl := ((h l (by simp)).scalar left hl).opens
    have hr := ((h r (by simp)).scalar right hr).opens
    -- the blanks keep the operator apart from a minus sign
    have hop (rest : List Char) : opensComment .code (op.sqlOperator.toList ++ ' ' :: rest) =
        opensComment .code rest := by
      cases op <;> simp [BinaryOp.sqlOperator]
    refine ⟨fun rest => ?_, by simp⟩
    simp [hl, hr, hop, or_assoc]
  | unary op a =>
    have ha := h a mem_cons_self
    cases op with
    | not =>
      obtain ⟨inner, hinner, ⟨⟩⟩ := bind_eq_ok.1 htext
      refine ⟨fun rest => ?_, by simp⟩
      simp [(ha.scalar inner hinner).opens]
    | negate =>
      obtain ⟨inner, hinner, ⟨⟩⟩ := bind_eq_ok.1 htext
      obtain ⟨hne, hminus⟩ := (ha.scalar inner hinner).starts
      obtain ⟨c, hc⟩ := Option.ne_none_iff_exists'.1 hne
      refine ⟨fun rest => ?_, by simp⟩
      simp [(ha.scalar inner hinner).opens, hc, ← hminus, or_assoc]
  | between a l r =>
    simp only [spelled, children, forall_mem_cons] at h
    simp only [scalarSql, bind_eq_ok, pure_eq_ok] at htext
    obtain ⟨item, ha, lower, hl, upper, hr, rfl⟩ := htext
    refine ⟨fun rest => ?_, by simp⟩
    simp [(h.1.scalar item ha).opens, (h.2.1.scalar lower hl).opens, (h.2.2.1.scalar upper hr).opens,
      children, or_assoc]
  | isNull a =>
    obtain ⟨inner, hinner, ⟨⟩⟩ := bind_eq_ok.1 htext
    refine ⟨fun rest => ?_, by simp⟩
    simp [((h a mem_cons_self).scalar inner hinner).opens]
  | existsSubquery q =>
    obtain ⟨inner, hinner, ⟨⟩⟩ := bind_eq_ok.1 htext
    refine ⟨fun rest => ?_, by simp⟩
    simp [((h q mem_cons_self).scalar inner hinner).opens]
  | inSubquery a q =>
    obtain ⟨item, ha, htext⟩ := bind_eq_ok.1 htext
    obtain ⟨query, hq, ⟨⟩⟩ := bind_eq_ok.1 htext
    simp only [spelled, children, forall_mem_cons] at h
    refine ⟨fun rest => ?_, by simp⟩
    simp [(h.1.scalar item ha).opens, (h.2.1.scalar query hq).opens, or_assoc]
  | aggregate kind a distinct type =>
    obtain ⟨argument, hargument, ⟨⟩⟩ := bind_eq_ok.1 htext
    have hopens : Opens (∃ t ∈ a.toList, t.DoublesMinus) argument := by
      cases a with
      | none =>
        cases hargument
        exact (Sql.Opens.bare (by decide)).of_iff (by simp)
      | some a => exact ((h a mem_cons_self).scalar argument hargument).opens.of_iff (by simp)
    have hdistinct : Bare (if distinct then "DISTINCT " else "") := by split <;> decide
    have hkind : Spells False False (kind.sqlName ++ "(") := by
      cases kind <;> exact .word (by decide) (by decide)
    have hclose : Opens False ")" := .bare (by decide)
    exact (((hkind.append (.bare hdistinct)).append hopens).append hclose).of_iff (by simp) (by simp)
  | rowNumber order =>
    simp only [scalarSql] at htext
    split at htext
    · obtain ⟨keys, hkeys, ⟨⟩⟩ := bind_eq_ok.1 htext
      refine ⟨fun rest => ?_, by simp⟩
      simp [(openAll_keysSql hkeys h).list]
    · cases htext

theorem Tree.opens_sourceSql (h : ∀ a ∈ t.spelled, a.Scanned cx) (htext : t.sourceSql cx = .ok text) :
    Opens (t.negatesSigned = true ∨ ∃ a ∈ t.spelled, a.DoublesMinus) text := by
  cases t with
  | table x name =>
    obtain ⟨source, hsource, ⟨⟩⟩ := bind_eq_ok.1 htext
    intro rest
    simp [opens_tableName name, (spells_name hsource).opens]
  | select s i =>
    obtain ⟨inner, hinner, htext⟩ := bind_eq_ok.1 htext
    obtain ⟨source, hsource, ⟨⟩⟩ := bind_eq_ok.1 htext
    intro rest
    simp [(Select.spells_sql h hinner).opens, (spells_name hsource).opens]
  | join j i =>
    obtain ⟨kind, l, r, c⟩ := j
    simp only [spelled, children, forall_mem_cons] at h
    simp only [sourceSql] at htext
    split at htext
    · cases htext
    · next words hwords =>
      have hbare : Bare words := by
        cases kind <;> cases hwords <;> decide
      simp only [bind_eq_ok, pure_eq_ok] at htext
      obtain ⟨left, hl, right, hr, on, hon, rfl⟩ := htext
      have hon := opens_conditionSql (by decide) h.2.2 hon
      intro rest
      simp [h.1.source left hl, h.2.1.source right hr, hon, Sql.Opens.bare hbare, or_assoc]
  | _ => cases htext

theorem Tree.mem_children_of_spelled (h : a ∈ t.spelled) : a ∈ t.children := by
  cases t with
  | outerJoined => exact .tail _ h
  | _ => exact h

theorem Tree.DoublesMinus.exists_subtree (h : t.DoublesMinus) : ∃ u ∈ t.subtrees, u.negatesSigned = true := by
  induction h with
  | node h => exact ⟨_, mem_subtrees.2 (.inl rfl), h⟩
  | part ha _ ih =>
    obtain ⟨u, hu, h⟩ := ih
    exact ⟨u, mem_subtrees.2 (.inr ⟨_, mem_children_of_spelled ha, hu⟩), h⟩

theorem Tree.scanned (plain : t.Every fun u => ∀ p ∈ u.parameter?, isPlainWord p.name.toList = true) :
    t.Scanned cx := by
  induction t with
  | step t ih =>
    have h : ∀ a ∈ t.spelled, a.Scanned cx := fun a ha =>
      ih a (mem_children_of_spelled ha) (plain.child (mem_children_of_spelled ha))
    refine ⟨fun text htext => ?_, fun text htext => ?_⟩
    · exact (spells_scalarSql (every_iff.1 plain).1 h htext).of_iff .rfl (doublesMinus_iff t).symm
    · exact (opens_sourceSql h htext).of_iff (doublesMinus_iff t).symm

/-- A statement opens a comment exactly if it puts a minus sign in front of a scalar whose text begins with one. -/
theorem Tree.toSql_opensComment (dialect : Dialect) (t : Tree)
    (plain : t.Every fun u => ∀ p ∈ u.parameter?, Sql.isPlainWord p.name.toList = true) (text : String)
    (h : t.toSql dialect = .ok text) : Sql.opensComment .code text.toList = true ↔ t.DoublesMinus := by
  cases t with
  | select s i =>
    have hopens := (Select.spells_sql (fun a ha => scanned (plain.child ha)) h).opens []
    rw [doublesMinus_iff]
    simpa [Sql.opensComment] using hopens
  | _ => cases h

/-- A negated price, less a negative number, beside a literal of two minus signs. -/
def owedPrices : Tree :=
  let read (name : String) : Tree := .column ⟨.int64, ScalarType.int64.columnType, 0, name⟩
  .select { label := 1
            columns := [⟨"rest", .binary .subtract (.unary .negate (read "price")) (.int (-5)),
              ScalarType.int64.columnType⟩]
            source := some (.table 0 "items")
            filter := some (.binary .notEqual (read "note") (.constant (.string "--"))) } none

theorem toSql_opensComment_owedPrices :
    ∃ text, owedPrices.toSql .hive = .ok text ∧ Sql.opensComment .code text.toList = false := by
  refine ⟨_, rfl, Bool.eq_false_iff.2 fun hopens => ?_⟩
  have hdoubles := (Tree.toSql_opensComment .hive owedPrices (by decide) _ rfl).1 hopens
  obtain ⟨u, hu, hsigned⟩ := hdoubles.exists_subtree
  have hnone : owedPrices.Every fun u => u.negatesSigned = false := by decide
  rw [hnone u hu] at hsigned
  cases hsigned

end HiveQuery
