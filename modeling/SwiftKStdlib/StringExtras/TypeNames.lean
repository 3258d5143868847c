import SwiftKStdlib.StringExtras.WordIterator
import SwiftKStdlib.Lib.Loop

/-!
# Names, type names and how they match

* `prepositions`, `verbs` : the tables of the source;
* `getPartOfSpeech` : a word is looked up, then its ending and its beginning are tried;
* `OmissionTypeName`, `InheritedNameSet` : what is known of a type and of the properties around;
* `matchNameWordToTypeWord`, `matchLeadingTypeName`, `skipTypeSuffix` : matching a name to a type name;
* `toLowercaseWord`, `toLowercaseInitialisms`, `canBeMemberName`, `isVacuousName`,
  `textMatchesPropertyName`.
-/

namespace SwiftKStdlib.StringExtras

inductive PartOfSpeech where
  | Unknown
  | Preposition
  | Verb
  | Gerund
  deriving DecidableEq, Repr

def sameWordIgnoreFirstCase (word1 word2 : StringRef) : Bool :=
  word1.length == word2.length && word1.head?.map toLowercase == word2.head?.map toLowercase
    && word1.tail == word2.tail

def startsWithIgnoreFirstCase (word1 word2 : StringRef) : Bool :=
  decide (word2.length ≤ word1.length) && word1.head?.map toLowercase == word2.head?.map toLowercase
    && word1.substr 1 (word2.length - 1) == word2.tail

/-- The directional and the other prepositions. -/
def prepositions : List String :=
  ["above", "after", "along", "alongside", "as", "at", "before", "below", "by", "following", "for", "from",
    "given", "in", "including", "inside", "into", "matching", "of", "on", "passing", "preceding", "since",
    "to", "until", "using", "via", "when", "with", "within"]

def verbs : List String :=
  ["abbreviate", "accept", "activate", "add", "adjust", "admire", "admit", "advise", "afford", "agree",
    "alert", "allow", "alter", "amuse", "analyse", "analyze", "animate", "announce", "annoy", "answer",
    "apologise", "appear", "append", "applaud", "apply", "apportion", "appreciate", "approve", "argue",
    "arrange", "arrest", "arrive", "ask", "assign", "attach", "attack", "attempt", "attend", "attract",
    "avoid", "awake", "back", "bake", "balance", "ban", "bang", "bare", "bat", "bathe", "battle", "be",
    "beat", "become", "beg", "begin", "behave", "belong", "bend", "bet", "bid", "bite", "bleach", "bless",
    "blind", "blink", "blot", "blow", "blush", "boast", "boil", "bolt", "bomb", "book", "bore", "borrow",
    "bounce", "bow", "box", "brake", "branch", "break", "breathe", "bring", "broadcast", "bruise", "brush",
    "bubble", "build", "bump", "burn", "bury", "buy", "buzz", "calculate", "call", "camp", "cancel",
    "capture", "care", "carry", "carve", "cast", "catch", "cause", "center", "challenge", "change", "charge",
    "chase", "cheat", "check", "cheer", "chew", "choke", "choose", "chop", "claim", "clap", "clean", "clear",
    "click", "close", "coach", "coil", "collect", "collapse", "colour", "comb", "come", "command", "commit",
    "communicate", "compare", "compete", "complain", "complete", "concentrate", "concern", "confess",
    "confuse", "connect", "consider", "consist", "contain", "contains", "continue", "convert", "copy",
    "correct", "cough", "cost", "count", "cover", "crack", "crash", "crawl", "cross", "crush", "cry", "cure",
    "curl", "curve", "customize", "cut", "cycle", "dam", "damage", "dance", "dare", "decay", "deceive",
    "decide", "decode", "decorate", "defer", "define", "delay", "delete", "delight", "deliver", "depend",
    "describe", "deselect", "desert", "deserve", "destroy", "detach", "detect", "develop", "dig", "dim",
    "disagree", "disappear", "disapprove", "disarm", "discover", "dislike", "dismiss", "display", "divide",
    "do", "double", "doubt", "drag", "drain", "draw", "dream", "dress", "drink", "drip", "drive", "drop",
    "drown", "drum", "dry", "duplicate", "dust", "earn", "eat", "echo", "edit", "educate", "embarrass",
    "employ", "empty", "enable", "encode", "encourage", "end", "enjoy", "enter", "entertain", "enumerate",
    "enqueue", "escape", "examine", "excite", "excuse", "execute", "exercise", "exist", "expand", "expect",
    "explain", "explode", "export", "extend", "face", "fade", "fail", "fancy", "fasten", "fax", "fear",
    "feel", "fence", "fetch", "fight", "fill", "film", "find", "finish", "fire", "fit", "fix", "flap",
    "flash", "flatten", "flip", "float", "flood", "flow", "flower", "fly", "focus", "fold", "follow", "fool",
    "force", "forget", "forgive", "form", "found", "freeze", "frighten", "fry", "gain", "gather", "gaze",
    "generate", "get", "give", "glow", "glue", "go", "grab", "grate", "grease", "greet", "grin", "grip",
    "groan", "grow", "guarantee", "guard", "guess", "guide", "hammer", "hand", "handle", "hang", "hang",
    "happen", "harass", "harm", "hate", "haunt", "head", "heal", "heap", "hear", "heat", "help", "hide",
    "highlight", "hit", "hold", "hook", "hop", "hope", "hover", "hug", "hum", "hunt", "hurry", "hurt",
    "identify", "ignore", "imagine", "import", "impress", "improve", "include", "increase", "influence",
    "inform", "inject", "injure", "insert", "instruct", "intend", "interest", "interfere", "interrupt",
    "intersect", "intersects", "introduce", "invent", "invite", "irritate", "itch", "jail", "jam", "jog",
    "join", "joke", "judge", "juggle", "jump", "keep", "kick", "kill", "kiss", "kneel", "knit", "knock",
    "knot", "know", "label", "land", "last", "laugh", "launch", "lay", "lead", "learn", "leave", "lend",
    "let", "level", "license", "lick", "lie", "lighten", "like", "listen", "live", "load", "localize",
    "lock", "long", "look", "lose", "love", "maintain", "make", "man", "manage", "march", "mark", "marry",
    "match", "mate", "matter", "mean", "measure", "meddle", "meet", "melt", "memorise", "mend", "merge",
    "mess", "milk", "mine", "miss", "minus", "mix", "moan", "moor", "mourn", "move", "muddle", "mug",
    "multiply", "murder", "nail", "nest", "nod", "normalize", "note", "notice", "notify", "number", "obey",
    "observe", "obtain", "occur", "offend", "offer", "open", "order", "overflow", "owe", "own", "pack",
    "paddle", "paint", "park", "part", "pass", "paste", "pat", "pause", "pay", "peck", "pedal", "peel",
    "peep", "perform", "permit", "phone", "pick", "pinch", "pine", "place", "plan", "plant", "play",
    "please", "plug", "poke", "polish", "pop", "possess", "post", "pour", "practice", "practise", "pray",
    "preach", "precede", "prefer", "preload", "prepare", "prepend", "present", "preserve", "press",
    "pretend", "prevent", "prick", "print", "produce", "program", "promise", "protect", "provide", "pull",
    "pump", "punch", "puncture", "punish", "push", "put", "question", "queue", "race", "radiate", "rain",
    "raise", "reach", "read", "realise", "receive", "recognise", "record", "reduce", "reflect", "refuse",
    "register", "regret", "reign", "reject", "rejoice", "relax", "release", "rely", "remain", "remember",
    "remind", "remove", "repair", "repeat", "replace", "reply", "report", "request", "require", "resize",
    "rescue", "resolve", "retain", "retire", "return", "reverse", "review", "rhyme", "ride", "ring", "rinse",
    "rise", "risk", "rob", "rock", "roll", "rot", "rub", "ruin", "rule", "run", "rush", "sack", "sail",
    "satisfy", "save", "saw", "say", "scale", "scare", "scatter", "scold", "scorch", "scrape", "scratch",
    "scream", "screw", "scribble", "scroll", "scrub", "seal", "search", "see", "select", "sell", "send",
    "separate", "serve", "settle", "shade", "share", "shave", "shelter", "shiver", "shock", "shop", "show",
    "shrug", "shut", "sigh", "sign", "signal", "sin", "sing", "sip", "sit", "ski", "skip", "slap", "sleep",
    "slip", "slow", "smash", "smell", "smile", "smoke", "snatch", "sneeze", "sniff", "snore", "snow", "soak",
    "soothe", "sound", "spare", "spark", "sparkle", "speak", "spell", "spend", "spill", "spoil", "spot",
    "spray", "sprout", "squash", "squeak", "squeal", "squeeze", "stain", "stamp", "stand", "standardise",
    "standardize", "stare", "start", "stay", "steer", "step", "stir", "stitch", "stop", "store", "strap",
    "strengthen", "stretch", "strip", "stroke", "stuff", "subtract", "succeed", "suck", "suffer", "suggest",
    "suit", "supply", "support", "suppose", "suppress", "surprise", "surround", "suspect", "suspend", "swim",
    "switch", "take", "talk", "tame", "tap", "taste", "teach", "tear", "tease", "telephone", "tell", "tempt",
    "terrify", "test", "thank", "thaw", "think", "throw", "tick", "tickle", "tie", "time", "tip", "tire",
    "toggle", "touch", "tour", "tow", "trace", "trade", "train", "translate", "transform", "transport",
    "trap", "travel", "traverse", "treat", "tremble", "trick", "trip", "trot", "trouble", "truncate",
    "trust", "try", "tug", "tumble", "turn", "twist", "understand", "undress", "unfasten", "union", "unite",
    "unload", "unlock", "unpack", "untidy", "up", "update", "use", "validate", "vanish", "visit", "wail",
    "wait", "wake", "walk", "wander", "want", "warm", "warn", "wash", "waste", "watch", "water", "wave",
    "wear", "weigh", "welcome", "whine", "whip", "whirl", "whisper", "whistle", "win", "wink", "wipe",
    "wish", "wobble", "wonder", "work", "worry", "wrap", "wreck", "wrestle", "wriggle", "write", "yawn",
    "yell", "zip", "zoom"]

def listed (table : List String) (word : StringRef) : Bool :=
  table.any fun entry => word.equalsLower (literal entry)

/-- The part of speech of a word; the words that remain to be tried are shorter than the fuel. -/
def getPartOfSpeech.lookup : Nat → StringRef → PartOfSpeech
  | 0, _ => .Unknown
  | fuel + 1, word =>
    if listed prepositions word then .Preposition
    else if listed verbs word then .Verb
    else
      let isVerb := fun word => lookup fuel word == .Verb
      let possibleVerb := word.dropBack 3
      -- a gerund, whose verb may have lost an "e" or doubled its last letter
      let gerund := word.endswith (literal "ing") && decide (4 < word.length) &&
        (isVerb possibleVerb
          || (possibleVerb.getLast? != (literal "e").head? && isVerb (possibleVerb ++ literal "e"))
          || (possibleVerb.getLast? == possibleVerb.dropLast.getLast? && isVerb possibleVerb.dropLast))
      let prefixed := fun before =>
        startsWithIgnoreFirstCase word before && decide (before.length < word.length) && isVerb (word.drop before.length)
      if gerund then .Gerund
      else if prefixed (literal "auto") || prefixed (literal "re") || prefixed (literal "de") then .Verb
      else .Unknown

def getPartOfSpeech (word : StringRef) : PartOfSpeech := getPartOfSpeech.lookup (word.length + 1) word

end SwiftKStdlib.StringExtras

namespace SwiftKStdlib.StringExtras

open Lib

/-- The name of a type, with the flags of its options. -/
structure OmissionTypeName where
  Name : StringRef
  CollectionElement : StringRef
  DefaultArgument : Bool
  Boolean : Bool
  Function : Bool
  deriving DecidableEq, Repr

namespace OmissionTypeName

def ofString (name : StringRef) : OmissionTypeName := ⟨name, [], false, false, false⟩

def empty (type : OmissionTypeName) : Bool := type.Name.isEmpty

/-- `operator==`. -/
def equals (lhs rhs : OmissionTypeName) : Bool :=
  lhs.Name == rhs.Name &&
    (lhs.CollectionElement.isEmpty || rhs.CollectionElement.isEmpty || lhs.CollectionElement == rhs.CollectionElement)

end OmissionTypeName

/-- A set of names, and those that it inherits. -/
inductive InheritedNameSet where
  | root (Names : List StringRef)
  | inherit (Parent : InheritedNameSet) (Names : List StringRef)
  deriving Repr

def InheritedNameSet.contains : InheritedNameSet → StringRef → Bool
  | .root Names, name => Names.contains name
  | .inherit Parent Names, name => Names.contains name || Parent.contains name

def canBeMemberName (identifier : StringRef) : Bool :=
  identifier != literal "init" && identifier != literal "Protocol" && identifier != literal "self"
    && identifier != literal "Type"

def isVacuousName (name : StringRef) : Bool :=
  sameWordIgnoreFirstCase name (literal "get") || sameWordIgnoreFirstCase name (literal "for")
    || sameWordIgnoreFirstCase name (literal "set") || sameWordIgnoreFirstCase name (literal "using")
    || sameWordIgnoreFirstCase name (literal "with")

def toLowercaseWord (string : StringRef) : StringRef :=
  match string with
  | [] => []
  | c :: rest =>
    if !isUppercase c then string
    -- an acronym stays
    else if rest.head?.any isUppercase then string
    else toLowercase c :: rest

/-- The loop of `toLowercaseInitialisms` from index `i` on, with the rest of the string. -/
def toLowercaseInitialisms.loop : Nat → StringRef → Option StringRef
  | _, [] => some []
  | i, c :: rest => do
    if rest.head?.any fun next => !isUppercase next then
      let firstWord ← getFirstWord rest
      -- no letter, a plural, or the beginning of the string
      if i == 0 || !rest.head?.any isLetter || isPluralSuffix firstWord then return toLowercase c :: rest
      else return c :: rest
    else
      let rest ← loop (i + 1) rest
      return toLowercase c :: rest

def toLowercaseInitialisms (string : StringRef) : Option StringRef :=
  if !string.head?.any isUppercase then some string else toLowercaseInitialisms.loop 0 string

/-- Whether the text, or its plural, is the name of a property. -/
def textMatchesPropertyName (text : StringRef) (allPropertyNames : Option InheritedNameSet) : Option Bool := do
  let some allPropertyNames := allPropertyNames | return false
  let name := toLowercaseWord text
  if allPropertyNames.contains name then return true
  let last ← name.getLast?
  if some last == (literal "y").head? then return allPropertyNames.contains (name.dropLast ++ literal "ies")
  else return allPropertyNames.contains (name ++ literal "s") || allPropertyNames.contains (name ++ literal "es")

/-- Skip a type suffix that can be dropped. -/
def skipTypeSuffix (typeName : StringRef) : Option (Option StringRef) := do
  if typeName.isEmpty then return none
  let lastWord ← getLastWord typeName
  if lastWord == literal "Type" && typeName.length > 4 then return some (typeName.dropBack 4)
  if lastWord == literal "Ref" && typeName.length > 3 then return some (typeName.dropBack 3)
  if lastWord == literal "Mask" && typeName.length > 4 then return some (typeName.dropBack 4)
  -- a dimension
  let firstDigit := skipBack typeName isDigit (typeName.length - 1)
  if typeName.getLast? == (literal "D").head? && typeName.length > 1 && firstDigit < typeName.length - 1 then
    return some (typeName.substr 0 firstDigit)
  if typeName.length > 2 && typeName.endswith (literal "_t") then return some (typeName.dropBack 2)
  return none

def matchNameWordToTypeWord (nameWord typeWord : StringRef) : Bool :=
  if nameWord.length > typeWord.length then false
  else if nameWord.length < typeWord.length then
    -- a suffix of the type word, behind a prefix such as "NS"
    if typeWord.endswithLower nameWord && !charAt typeWord (typeWord.length - nameWord.length) isLowercase then
      !(typeWord.take nameWord.length).any fun c => isLowercase c || c == underscore
    -- a prefix of the type word, before digits
    else if typeWord.startswithLower nameWord then (typeWord.drop nameWord.length).all isDigit
    else false
  else nameWord.equalsLower typeWord

/-- The iterators of `matchLeadingTypeName`. -/
structure LeadingState where
  nameWordIter : WordIterator
  typeWordIter : WordIterator

/-- One iteration that looks for the first word of the name in the type name. -/
def matchLeadingTypeName.find (nameWordIter : WordIterator) (typeWordRevIter : ReverseWordIterator) :
    Option (Step ReverseWordIterator ReverseWordIterator) := do
  if typeWordRevIter.base.Position == 0 then return .done typeWordRevIter
  if matchNameWordToTypeWord (← nameWordIter.deref).1 (← typeWordRevIter.deref) then return .done typeWordRevIter
  return .next (← typeWordRevIter.next)

/-- One iteration that matches the words that follow. -/
def matchLeadingTypeName.follow (nameEnd typeEnd : Nat) (s : LeadingState) : Option (Step LeadingState LeadingState) := do
  if s.typeWordIter.Position == typeEnd || s.nameWordIter.Position == nameEnd then return .done s
  if !matchNameWordToTypeWord (← s.nameWordIter.deref).1 (← s.typeWordIter.deref).1 then return .done s
  return .next ⟨← s.nameWordIter.next, ← s.typeWordIter.next⟩

/-- Match the beginning of the name to the given type name. -/
def matchLeadingTypeName (name : StringRef) (typeName : OmissionTypeName) : Option StringRef := do
  let nameWordIter ← wordIterator name 0
  let nameWordIterEnd ← wordIterator name name.length
  let typeWordIterEnd ← wordIterator typeName.Name typeName.Name.length
  let typeWordRevIter ← iterate (matchLeadingTypeName.find nameWordIter) (typeName.Name.length + 1) ⟨typeWordIterEnd⟩
  if typeWordRevIter.base.Position == 0 then return name
  let s : LeadingState := ⟨← nameWordIter.next, typeWordRevIter.base⟩
  let s ← iterate (matchLeadingTypeName.follow nameWordIterEnd.Position typeWordIterEnd.Position)
    (typeName.Name.length + 1) s
  if s.typeWordIter.Position != typeWordIterEnd.Position then return name
  return name.drop s.nameWordIter.Position

/-- Omit needless words from the beginning of a name. -/
def omitNeedlessWordsFromPrefix (name : StringRef) (type : OmissionTypeName) : Option StringRef := do
  if type.empty then return name
  let newName ← matchLeadingTypeName name type
  if newName == name then return name
  let firstWord ← getFirstWord newName
  if getPartOfSpeech firstWord == .Preposition && newName.length > firstWord.length then
    -- "by" is removed before a gerund
    if firstWord == literal "By" then
      let nextWord ← getFirstWord (newName.drop firstWord.length)
      if nextWord.endswith (literal "ing") then return toLowercaseWord (newName.drop firstWord.length)
    return toLowercaseWord newName
  return name

end SwiftKStdlib.StringExtras
