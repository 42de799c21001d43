import HiveQuery.Tree

/-!
# Equality of trees

Two trees are compared up to the choice of aliases, or in every detail. In the first case a pairing says
which alias of the left tree stands for which alias of the right tree; the sources of a select or a join
extend it for the clauses that see them. Tables compare by name, and types of columns do not count.
Undefined numbers are equal if both are copies of one number. Where a query pairs up aliases, both have to
be copies of one query too.
-/

namespace HiveQuery
set_option autoImplicit false

/-! ## Up to aliases -/

/-- The aliases that are taken for each other. -/
structure Pairing where
  /-- Which alias on the left stands for which alias on the right; the latest pair counts first. -/
  pairs : List (Alias × Alias)
  /-- Are copies of one undefined number equal? -/
  copies : Bool

/-- Pairs that are given from outside; copies count only if there are none. -/
def Pairing.ofPairs (pairs : List (Alias × Alias)) : Pairing :=
  ⟨pairs, pairs.isEmpty⟩

/-- Does `a` on the left stand for `b` on the right? An alias without a pair stands for itself. -/
def Pairing.matches (p : Pairing) (a b : Alias) : Bool :=
  match p.pairs.lookup a with
  | some mapped => mapped == b
  | none => a == b

/-- Pairs up the aliases of two sources. The first pairs are made by the outermost query that makes any,
and copies count inside of it if it is itself the same query on both sides. -/
def Pairing.extend (p : Pairing) (same : Bool) (a b : Tree) : Pairing :=
  let new := (a.sources.zip b.sources).reverse
  ⟨new ++ p.pairs, p.copies && (same || new.isEmpty || !p.pairs.isEmpty)⟩

def Pairing.extendOption (p : Pairing) (same : Bool) : Option Tree → Option Tree → Pairing
  | some a, some b => p.extend same a b
  | _, _ => p

/-- Are two queries copies of one query? -/
def sameQuery : Option Identity → Option Identity → Bool
  | some id, some id' => id == id'
  | _, _ => false

mutual

/-- Equality of trees whose aliases are paired up. -/
def Tree.equalUnder (p : Pairing) : Tree → Tree → Bool
  | .constant x, .constant y => x == y
  | .undefined id, .undefined id' => p.copies && id == id'
  | .parameter x, .parameter y => x == y
  | .binary op l r, .binary op' l' r' => op == op' && l.equalUnder p l' && r.equalUnder p r'
  | .unary op t, .unary op' t' => op == op' && t.equalUnder p t'
  | .between t l u, .between t' l' u' =>
    t.equalUnder p t' && l.equalUnder p l' && u.equalUnder p u'
  | .isNull t, .isNull t' => t.equalUnder p t'
  | .member t name, .member t' name' => name == name' && t.equalUnder p t'
  | .record fields, .record fields' => equalFields p fields fields'
  | .entity name t, .entity name' t' => name == name' && t.equalUnder p t'
  | .outerJoined test t, .outerJoined test' t' => test.equalUnder p test' && t.equalUnder p t'
  | .table _ name, .table _ name' => name == name'
  | .column c, .column c' => c.name == c'.name && p.matches c.label c'.label
  | .select s id, .select s' id' => s.equalUnder p (sameQuery id id') s'
  | .join ⟨kind, l, r, c⟩ id, .join ⟨kind', l', r', c'⟩ id' =>
    let same := sameQuery id id'
    kind == kind' && l.equalUnder p l' &&
      r.equalUnder (if kind.isApply then p.extend same l l' else p) r' &&
      equalOption ((p.extend same l l').extend same r r') c c'
  | .scalarSubquery q type, .scalarSubquery q' type' => type == type' && q.equalUnder p q'
  | .existsSubquery q, .existsSubquery q' => q.equalUnder p q'
  | .inSubquery t q, .inSubquery t' q' => t.equalUnder p t' && q.equalUnder p q'
  | .aggregate kind t distinct _, .aggregate kind' t' distinct' _ =>
    kind == kind' && distinct == distinct' && equalOption p t t'
  | .rowNumber order, .rowNumber order' => equalKeys p order order'
  | .projection q t id, .projection q' t' id' =>
    q.equalUnder p q' && t.equalUnder (p.extend (sameQuery id id') q q') t'
  | _, _ => false
termination_by structural t => t

/-- The sources of two selects pair up for all of their other clauses. -/
def Select.equalUnder (p : Pairing) (same : Bool) : Select Tree → Select Tree → Bool
  | ⟨_, columns, source, filter, order, group, distinct, skip, take, reverse, cluster⟩, s =>
    equalOption p source s.source &&
      (let inner := p.extendOption same source s.source
       distinct == s.distinct && reverse == s.reverse &&
         equalOption inner filter s.filter && equalKeys inner order s.order &&
         equalList inner group s.group && equalList inner cluster s.cluster &&
         equalOption inner skip s.skip && equalOption inner take s.take &&
         equalColumns inner columns s.columns)
termination_by structural t => t

def equalOption (p : Pairing) : Option Tree → Option Tree → Bool
  | none, none => true
  | some t, some t' => t.equalUnder p t'
  | _, _ => false
termination_by structural t => t

def equalList (p : Pairing) : List Tree → List Tree → Bool
  | [], [] => true
  | t :: ts, t' :: ts' => t.equalUnder p t' && equalList p ts ts'
  | _, _ => false
termination_by structural t => t

def equalKeys (p : Pairing) : List (SortKey Tree) → List (SortKey Tree) → Bool
  | [], [] => true
  | ⟨d, t⟩ :: ks, k' :: ks' => d == k'.direction && t.equalUnder p k'.value && equalKeys p ks ks'
  | _, _ => false
termination_by structural t => t

def equalColumns (p : Pairing) : List (Column Tree) → List (Column Tree) → Bool
  | [], [] => true
  | ⟨name, t, _⟩ :: cs, c' :: cs' =>
    name == c'.name && t.equalUnder p c'.value && equalColumns p cs cs'
  | _, _ => false
termination_by structural t => t

def equalFields (p : Pairing) : List (String × Tree) → List (String × Tree) → Bool
  | [], [] => true
  | (name, t) :: fs, f' :: fs' => name == f'.1 && t.equalUnder p f'.2 && equalFields p fs fs'
  | _, _ => false
termination_by structural t => t

end

/-- Equality up to the choice of aliases. -/
def Tree.equal (a b : Tree) : Bool :=
  a.equalUnder (.ofPairs []) b

/-! ## In every detail -/

mutual

/-- Equality in every detail. -/
def Tree.beq : Tree → Tree → Bool
  | .constant x, .constant y => x == y
  | .undefined id, .undefined id' => id == id'
  | .parameter x, .parameter y => x == y
  | .binary op l r, .binary op' l' r' => op == op' && l.beq l' && r.beq r'
  | .unary op t, .unary op' t' => op == op' && t.beq t'
  | .between t l u, .between t' l' u' => t.beq t' && l.beq l' && u.beq u'
  | .isNull t, .isNull t' => t.beq t'
  | .member t name, .member t' name' => name == name' && t.beq t'
  | .record fields, .record fields' => beqFields fields fields'
  | .entity name t, .entity name' t' => name == name' && t.beq t'
  | .outerJoined test t, .outerJoined test' t' => test.beq test' && t.beq t'
  | .table a name, .table a' name' => a == a' && name == name'
  | .column c, .column c' => c == c'
  | .select s id, .select s' id' => id == id' && s.beq s'
  | .join ⟨kind, l, r, c⟩ id, .join ⟨kind', l', r', c'⟩ id' =>
    id == id' && kind == kind' && l.beq l' && r.beq r' && beqOption c c'
  | .scalarSubquery q type, .scalarSubquery q' type' => type == type' && q.beq q'
  | .existsSubquery q, .existsSubquery q' => q.beq q'
  | .inSubquery t q, .inSubquery t' q' => t.beq t' && q.beq q'
  | .aggregate kind t distinct type, .aggregate kind' t' distinct' type' =>
    kind == kind' && beqOption t t' && distinct == distinct' && type == type'
  | .rowNumber order, .rowNumber order' => beqKeys order order'
  | .projection q t id, .projection q' t' id' => id == id' && q.beq q' && t.beq t'
  | _, _ => false
termination_by structural t => t

def Select.beq : Select Tree → Select Tree → Bool
  | ⟨label, columns, source, filter, order, group, distinct, skip, take, reverse, cluster⟩, s =>
    label == s.label && beqColumns columns s.columns && beqOption source s.source &&
      beqOption filter s.filter && beqKeys order s.order && beqList group s.group &&
      distinct == s.distinct && beqOption skip s.skip && beqOption take s.take &&
      reverse == s.reverse && beqList cluster s.cluster
termination_by structural t => t

def beqOption : Option Tree → Option Tree → Bool
  | none, none => true
  | some t, some t' => t.beq t'
  | _, _ => false
termination_by structural t => t

def beqList : List Tree → List Tree → Bool
  | [], [] => true
  | t :: ts, t' :: ts' => t.beq t' && beqList ts ts'
  | _, _ => false
termination_by structural t => t

def beqKeys : List (SortKey Tree) → List (SortKey Tree) → Bool
  | [], [] => true
  | ⟨d, t⟩ :: ks, k' :: ks' => d == k'.direction && t.beq k'.value && beqKeys ks ks'
  | _, _ => false
termination_by structural t => t

def beqColumns : List (Column Tree) → List (Column Tree) → Bool
  | [], [] => true
  | ⟨name, t, type⟩ :: cs, c' :: cs' =>
    name == c'.name && t.beq c'.value && type == c'.type && beqColumns cs cs'
  | _, _ => false
termination_by structural t => t

def beqFields : List (String × Tree) → List (String × Tree) → Bool
  | [], [] => true
  | (name, t) :: fs, f' :: fs' => name == f'.1 && t.beq f'.2 && beqFields fs fs'
  | _, _ => false
termination_by structural t => t

end

instance : BEq Tree := ⟨Tree.beq⟩

end HiveQuery
