import ChatCodes.Color.Nearest
import ChatCodes.Proofs.HexColors
import ChatCodes.Proofs.Markup.Attempts
import ChatCodes.Proofs.Markup.Economy
import ChatCodes.Proofs.Markup.FixedPoints
import ChatCodes.Proofs.Markup.ReadBack
import ChatCodes.Proofs.Markup.Room
import ChatCodes.Proofs.NamedColors
import ChatCodes.Proofs.RunLength
import ChatCodes.Proofs.Stream.Calls
import ChatCodes.Proofs.Stream.Chunks
import ChatCodes.Proofs.Stream.Endings
import ChatCodes.Proofs.Style
import ChatCodes.Proofs.Token.Boundaries
import ChatCodes.Proofs.Token.Casing
import ChatCodes.Proofs.Token.Remarking
import ChatCodes.Proofs.Token.Resets
import ChatCodes.Proofs.Token.Written
import ChatCodes.Stream.LineCodec
