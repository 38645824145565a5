import Monkey.Main
import Monkey.Token.Spelling
import Monkey.Proofs.ParserSoundness
import Monkey.Proofs.UnnestedReturns
import Monkey.Proofs.RaisedReturns
import Monkey.Proofs.BlockStructure
import Monkey.Proofs.Tokenization
import Monkey.Proofs.Renumbering
import Monkey.Proofs.Completion
import Monkey.Proofs.ScopeGraph
import Monkey.Proofs.CallLimit
import Monkey.Proofs.Interference
import Monkey.Proofs.OrdinaryValues
import Monkey.Proofs.PrintedText
import Monkey.Proofs.Conversation
import Monkey.Proofs.Framing
import Monkey.Proofs.JoinedLines
import Monkey.Proofs.ParameterRenaming
import Monkey.Proofs.ParsingEnds
import Monkey.Proofs.PrintedValues
import Monkey.Proofs.FunctionIdentity
import Monkey.Proofs.UnusedBindings
import Monkey.Proofs.WrappingArithmetic
import Monkey.Proofs.FlattenedBlocks
import Monkey.Proofs.LookupHistory
import Monkey.Proofs.MixedCalls
import Monkey.Proofs.CursorBounds
